import CassandraVerified.Storage.Format.Bloom
import CassandraVerified.Storage.Proofs.DataProofs

/-!
# Proofs: the Bloom filter

A filter has no false negatives: it might contain every key that was added to it, also after it
went through its file.
-/

namespace CassandraVerified.Storage

open List
open Wire (beBytes Reader)
open Wire.Reader (Reads)

variable {f g : BloomFilter} {bit : Nat}

theorem or_and_of_and {w m k : UInt64} (h : w &&& k ≠ 0) : (w ||| m) &&& k ≠ 0 := by
  intro hzero
  have hdist : (w ||| m) &&& k = (w &&& k) ||| (m &&& k) := by
    apply UInt64.toBitVec_inj.mp
    ext i hi
    simp only [UInt64.toBitVec_and, UInt64.toBitVec_or, BitVec.getElem_and, BitVec.getElem_or]
    exact Bool.and_or_distrib_right _ _ _
  rw [hdist, UInt64.or_eq_zero_iff] at hzero
  exact h hzero.1

theorem or_and_self_ne_zero (w : UInt64) (i : Nat) :
    (w ||| 1 <<< UInt64.ofNat (i % 64)) &&& 1 <<< UInt64.ofNat (i % 64) ≠ 0 := by
  have hself : (w ||| 1 <<< UInt64.ofNat (i % 64)) &&& 1 <<< UInt64.ofNat (i % 64) =
      1 <<< UInt64.ofNat (i % 64) := by
    generalize (1 : UInt64) <<< UInt64.ofNat (i % 64) = m
    apply UInt64.toBitVec_inj.mp
    ext j hj
    simp only [UInt64.toBitVec_and, UInt64.toBitVec_or, BitVec.getElem_and, BitVec.getElem_or]
    cases w.toBitVec[j] <;> cases m.toBitVec[j] <;> rfl
  have hshift : ∀ k : Fin 64, (1 : UInt64) <<< UInt64.ofNat k ≠ 0 := by decide
  rw [hself]
  exact hshift ⟨i % 64, Nat.mod_lt _ (by decide)⟩

namespace BloomFilter

/-- Another filter of the same shape that has at least the same bits. -/
structure Extends (g f : BloomFilter) : Prop where
  length : g.bits.length = f.bits.length
  numHashFunctions : g.numHashFunctions = f.numHashFunctions
  bitCount : g.bitCount = f.bitCount
  hasBit : ∀ bit, f.hasBit bit = true → g.hasBit bit = true

theorem Extends.refl (f : BloomFilter) : Extends f f := ⟨rfl, rfl, rfl, fun _ h => h⟩

theorem Extends.trans {k : BloomFilter} (h : Extends k g) (h' : Extends g f) : Extends k f :=
  ⟨h.length.trans h'.length, h.numHashFunctions.trans h'.numHashFunctions,
    h.bitCount.trans h'.bitCount, fun bit hbit => h.hasBit bit (h'.hasBit bit hbit)⟩

theorem hasBit_eq_true : f.hasBit bit = true ↔
      ∃ word, f.bits[bit / 64]? = some word ∧ word &&& 1 <<< UInt64.ofNat (bit % 64) ≠ 0 := by
  rw [hasBit, Option.any_eq_true]
  simp

theorem extends_setBit (f : BloomFilter) (bit : Nat) : Extends (f.setBit bit) f where
  length := length_modify _ _ _
  numHashFunctions := rfl
  bitCount := rfl
  hasBit b hb := by
    obtain ⟨word, hword, hne⟩ := hasBit_eq_true.mp hb
    refine hasBit_eq_true.mpr
      ⟨if bit / 64 = b / 64 then word ||| 1 <<< UInt64.ofNat (bit % 64) else word, ?_, ?_⟩
    · simp [setBit, List.getElem?_modify, hword]
    · split
      · exact or_and_of_and hne
      · exact hne

theorem hasBit_setBit (h : bit / 64 < f.bits.length) : (f.setBit bit).hasBit bit = true := by
  refine hasBit_eq_true.mpr ⟨f.bits.get ⟨bit / 64, h⟩ ||| 1 <<< UInt64.ofNat (bit % 64), ?_, ?_⟩
  · simp [setBit, h]
  · exact or_and_self_ne_zero _ _

/-- There is a word for every bit. -/
structure Sized (f : BloomFilter) : Prop where
  pos : 0 < f.bitCount
  le : f.bitCount ≤ 64 * f.bits.length

theorem Sized.of_extends (h : f.Sized) (hg : Extends g f) : g.Sized :=
  ⟨hg.bitCount ▸ h.pos, hg.bitCount ▸ hg.length ▸ h.le⟩

theorem Sized.word_lt (h : f.Sized) (hash : UInt64 × UInt64) (i : Nat) :
    f.getBitIndex hash i / 64 < f.bits.length := by
  have hlt : f.getBitIndex hash i < f.bitCount := Nat.mod_lt _ h.pos
  have hle := h.le
  omega

theorem foldl_setBit (index : Nat → Nat) (hindex : ∀ i, index i / 64 < f.bits.length)
    (is : List Nat) :
    Extends (is.foldl (fun g i => g.setBit (index i)) f) f ∧
      ∀ i ∈ is, (is.foldl (fun g i => g.setBit (index i)) f).hasBit (index i) = true := by
  induction is generalizing f with
  | nil => exact ⟨.refl f, by simp⟩
  | cons j is ih =>
    have hset := f.extends_setBit (index j)
    obtain ⟨hext, hbits⟩ := ih fun i => hset.length ▸ hindex i
    refine ⟨hext.trans hset, fun i hi => ?_⟩
    rcases mem_cons.mp hi with rfl | hi
    · exact hext.hasBit _ (hasBit_setBit (hindex i))
    · exact hbits i hi

section Adding

variable {hash : Bytes → UInt64 × UInt64}

theorem extends_addWith (h : f.Sized) (key : Bytes) : Extends (f.addWith hash key) f :=
  (foldl_setBit _ (h.word_lt _) _).1

theorem mightContainWith_of_extends (h : Extends g f) {key : Bytes}
    (hkey : f.mightContainWith hash key = true) : g.mightContainWith hash key = true := by
  rw [mightContainWith, all_eq_true] at hkey ⊢
  intro i hi
  rw [h.numHashFunctions] at hi
  have hbit : g.getBitIndex (hash key) i = f.getBitIndex (hash key) i := by
    rw [getBitIndex, getBitIndex, h.bitCount]
  rw [hbit]
  exact h.hasBit _ (hkey i hi)

theorem mightContainWith_addWith (h : f.Sized) (key : Bytes) :
    (f.addWith hash key).mightContainWith hash key = true := by
  obtain ⟨hext, hbits⟩ := foldl_setBit _ (h.word_lt (hash key)) (List.range f.numHashFunctions)
  rw [mightContainWith, all_eq_true]
  intro i hi
  have hbit : (f.addWith hash key).getBitIndex (hash key) i = f.getBitIndex (hash key) i := by
    rw [getBitIndex, getBitIndex, (extends_addWith h key).bitCount]
  rw [hbit]
  rw [(extends_addWith h key).numHashFunctions] at hi
  exact hbits i hi

theorem foldl_addWith (h : f.Sized) (keys : List Bytes) : Extends (keys.foldl (addWith hash) f) f ∧
      ∀ key ∈ keys, (keys.foldl (addWith hash) f).mightContainWith hash key = true := by
  induction keys generalizing f with
  | nil => exact ⟨.refl f, by simp⟩
  | cons k keys ih =>
    have hadd : Extends (f.addWith hash k) f := extends_addWith h k
    obtain ⟨hext, hkeys⟩ := ih (h.of_extends hadd)
    refine ⟨hext.trans hadd, fun key hkey => ?_⟩
    rcases mem_cons.mp hkey with rfl | hkey
    · exact mightContainWith_of_extends hext (mightContainWith_addWith h key)
    · exact hkeys key hkey

end Adding

theorem sized_ofSize {bitCount : Nat} (h : 64 ≤ bitCount) (hashes : Nat) :
    (ofSize bitCount hashes).Sized where
  pos := by
    simp only [ofSize]
    omega
  le := by
    simp only [ofSize, length_replicate]
    omega

theorem sized_new (sizing : BloomSizing) (n : Nat) : (new sizing n).Sized :=
  sized_ofSize (le_max_right _ 64) _

theorem mightContain_ofKeys (sizing : BloomSizing) {keys : List Bytes} {key : Bytes}
    (h : key ∈ keys) : (ofKeys sizing keys).mightContain key = true :=
  (foldl_addWith (sized_new sizing _) keys).2 key h

/-- A filter as it is read back. The number of its words is written in 32 bits, and only so many
words are read. -/
def reread (f : BloomFilter) : BloomFilter :=
  { f with bits := f.bits.take (f.bits.length % 2 ^ 32) }

theorem reread_of_lt (h : f.bits.length < 2 ^ 32) : f.reread = f := by
  rw [reread, Nat.mod_eq_of_lt h, take_length]

theorem run_deserialize (hhashes : f.numHashFunctions < 2 ^ 32) (hbits : f.bitCount < 2 ^ 64) :
    ∃ rest, deserialize.run f.serialize = .ok (f.reread, rest) := by
  obtain ⟨words, hwords⟩ : ∃ words, words = f.bits.take (f.bits.length % 2 ^ 32) := ⟨_, rfl⟩
  have hcount : Reads (readUInt 4) (beBytes 4 f.bits.length) words.length := by
    rw [hwords, length_take_of_le (Nat.mod_le _ _)]
    exact Reads.be_mod _ 4 _
  have htimes : Reads (Reader.times (readUInt 8) words.length)
      (words.flatMap fun word => beBytes 8 word.toNat) (words.map UInt64.toNat) := by
    have hread : ∀ n ∈ words.map UInt64.toNat, Reads (readUInt 8) (beBytes 8 n) n := by
      intro n hn
      obtain ⟨w, -, rfl⟩ := mem_map.mp hn
      exact reads_uint (UInt64.toNat_lt w)
    have h := Reads.times hread
    rwa [length_map, flatMap_map] at h
  have hback : (words.map UInt64.toNat).map UInt64.ofNat = words := by
    rw [map_map]
    conv_rhs => rw [← map_id words]
    exact map_congr_left fun w _ => UInt64.ofNat_toNat
  have hlast := htimes.bind_pure
    (f := fun words => (⟨words.map UInt64.ofNat, f.numHashFunctions, f.bitCount⟩ : BloomFilter))
  rw [hback] at hlast
  have hread : Reads deserialize (beBytes 4 f.numHashFunctions ++ (beBytes 8 f.bitCount ++
      (beBytes 4 f.bits.length ++ words.flatMap fun word => beBytes 8 word.toNat)))
      { f with bits := words } :=
    (reads_uint hhashes).bind ((reads_uint hbits).bind (hcount.bind hlast))
  refine ⟨(f.bits.drop (f.bits.length % 2 ^ 32)).flatMap fun word => beBytes 8 word.toNat, ?_⟩
  have hrun := hread
    ((f.bits.drop (f.bits.length % 2 ^ 32)).flatMap fun word => beBytes 8 word.toNat)
  simp only [append_assoc, hwords, ← flatMap_append, take_append_drop] at hrun
  rw [serialize, append_assoc, append_assoc, reread]
  exact hrun

theorem load_file (hhashes : f.numHashFunctions < 2 ^ 32) (hbits : f.bitCount < 2 ^ 64)
    (hwords : f.bits.length < 2 ^ 32) : load f.file = .ok f := by
  obtain ⟨rest, hrun⟩ := run_deserialize hhashes hbits
  have hmagic : Reads (readExact 4) magic magic := reads_exact magic
  simp only [load, file]
  rw [Reader.run_bind_of_ok (hmagic _), if_neg (not_not_intro rfl), hrun, reread_of_lt hwords]
  rfl

theorem load_file_ofKeys (sizing : BloomSizing) {keys : List Bytes} (h : keys.length < 2 ^ 32) :
    load (ofKeys sizing keys).file = .ok (ofKeys sizing keys) := by
  have hext : Extends (ofKeys sizing keys) (new sizing (max keys.length 1)) :=
    (foldl_addWith (sized_new sizing (max keys.length 1)) keys).1
  have hsize := sizing.numBits_le (max (max keys.length 1) 1)
  refine load_file ?_ ?_ ?_
  · rw [hext.numHashFunctions]
    exact lt_of_le_of_lt (min_le_right _ 30) (by decide)
  · rw [hext.bitCount]
    simp only [new, optimalNumBits]
    omega
  · rw [hext.length]
    simp only [new, optimalNumBits, length_replicate]
    omega

/-- Every key that was added is found, also after the filter went through its bytes. -/
def FindsAll (hash : Bytes → UInt64 × UInt64) (f : BloomFilter) (keys : List Bytes) : Prop :=
  ∀ key ∈ keys, (keys.foldl (addWith hash) f).mightContainWith hash key = true ∧
    ∃ g rest, deserialize.run (keys.foldl (addWith hash) f).serialize = .ok (g, rest) ∧
      g.mightContainWith hash key = true

section AnySize

variable {bitCount numHashes : Nat}

theorem findsAll_ofSize (hmin : 64 ≤ bitCount) (hmax : bitCount < 2 ^ 64) (hhashes : numHashes ≤ 30)
    (hwords : (bitCount + 63) / 64 < 2 ^ 32) (hash : Bytes → UInt64 × UInt64)
    (keys : List Bytes) : FindsAll hash (ofSize bitCount numHashes) keys := by
  intro key hkey
  obtain ⟨hext, hkeys⟩ := foldl_addWith (sized_ofSize hmin numHashes) keys
  obtain ⟨rest, hrun⟩ := run_deserialize (f := keys.foldl (addWith hash) (ofSize bitCount numHashes))
    (by rw [hext.numHashFunctions]; exact lt_of_le_of_lt hhashes (by decide))
    (by rw [hext.bitCount]; exact hmax)
  have hlength : (keys.foldl (addWith hash) (ofSize bitCount numHashes)).bits.length < 2 ^ 32 := by
    rw [hext.length, ofSize, length_replicate]
    exact hwords
  rw [reread_of_lt hlength] at hrun
  exact ⟨hkeys key hkey, _, rest, hrun, hkeys key hkey⟩

theorem getBitIndex_zero (hbit : bit < f.bitCount) (hlt : bit < 2 ^ 63) :
    f.getBitIndex (UInt64.ofNat bit, 0) 0 = bit := by
  have hmask : (0x7FFFFFFFFFFFFFFF : UInt64).toNat = 2 ^ 63 - 1 := by decide
  have hbit' : bit % 2 ^ 64 = bit := Nat.mod_eq_of_lt (by omega)
  rw [getBitIndex, UInt64.mul_zero, UInt64.add_zero, UInt64.toNat_and, hmask,
    Nat.and_two_pow_sub_one_eq_mod, UInt64.toNat_ofNat', hbit', Nat.mod_eq_of_lt hlt,
    Nat.mod_eq_of_lt hbit]

/-- A key whose bit is the first of those that are not read back. -/
theorem not_findsAll_ofSize (hmax : bitCount < 2 ^ 64) (hpos : 1 ≤ numHashes)
    (hhashes : numHashes ≤ 30) (hwords : 2 ^ 32 ≤ (bitCount + 63) / 64) :
    ¬ FindsAll (fun _ => (UInt64.ofNat (64 * ((bitCount + 63) / 64 % 2 ^ 32)), 0))
      (ofSize bitCount numHashes) [[]] := by
  intro hfinds
  set words := (bitCount + 63) / 64 with hdef
  set hash : Bytes → UInt64 × UInt64 := fun _ => (UInt64.ofNat (64 * (words % 2 ^ 32)), 0)
  have hext : Extends ((ofSize bitCount numHashes).addWith hash []) (ofSize bitCount numHashes) :=
    extends_addWith (sized_ofSize (by omega) _) _
  obtain ⟨-, g, rest, hrun, hfound⟩ := hfinds [] (by simp)
  obtain ⟨rest', hrun'⟩ := run_deserialize (f := (ofSize bitCount numHashes).addWith hash [])
    (by rw [hext.numHashFunctions]; exact lt_of_le_of_lt hhashes (by decide))
    (by rw [hext.bitCount]; exact hmax)
  rw [foldl_cons, foldl_nil, hrun', Except.ok.injEq, Prod.mk.injEq] at hrun
  obtain ⟨rfl, -⟩ := hrun
  have hlength : ((ofSize bitCount numHashes).addWith hash []).bits.length = words := by
    rw [hext.length, ofSize, length_replicate]
  have hindex : (reread ((ofSize bitCount numHashes).addWith hash [])).getBitIndex (hash []) 0 =
      64 * (words % 2 ^ 32) := by
    refine getBitIndex_zero ?_ (by omega)
    rw [reread, hext.bitCount]
    show 64 * (words % 2 ^ 32) < bitCount
    omega
  have hbit := all_eq_true.mp hfound 0
    (mem_range.mpr (by rw [reread, hext.numHashFunctions]; exact hpos))
  rw [hindex, hasBit, reread, hlength, Nat.mul_div_cancel_left _ (by decide),
    List.getElem?_eq_none (by simp)] at hbit
  exact absurd hbit (by simp)

/-- A filter finds every key that was added, whatever the hash function, exactly if the number of
its words fits 32 bits. -/
theorem findsAll_iff (hmin : 64 ≤ bitCount) (hmax : bitCount < 2 ^ 64) (hpos : 1 ≤ numHashes)
    (hhashes : numHashes ≤ 30) :
    (∀ hash keys, FindsAll hash (ofSize bitCount numHashes) keys) ↔
      (bitCount + 63) / 64 < 2 ^ 32 := by
  constructor
  · intro hfinds
    by_contra hwords
    exact not_findsAll_ofSize hmax hpos hhashes (Nat.le_of_not_lt hwords) (hfinds _ _)
  · exact fun hwords => findsAll_ofSize hmin hmax hhashes hwords

theorem findsAll_iff_smallest :
    (∀ hash keys, FindsAll hash (ofSize 64 1) keys) ↔ (64 + 63) / 64 < 2 ^ 32 :=
  findsAll_iff (by decide) (by decide) (by decide) (by decide)

/-- 32 GiB, for about 29 billion keys at a rate of 0.01: no word at all is read back. -/
theorem not_findsAll_wide : ¬ ∀ hash keys, FindsAll hash (ofSize (2 ^ 38) 7) keys :=
  fun hfinds => not_findsAll_ofSize (by decide) (by decide) (by decide) (by decide) (hfinds _ _)

end AnySize

end BloomFilter

end CassandraVerified.Storage
