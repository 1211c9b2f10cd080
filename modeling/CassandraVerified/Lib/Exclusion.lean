import Mathlib

/-!
# Registries of locks

A registry grants and denies requests for locks on resources, and takes the locks of an owner back.
What is held is read off the calls and their answers, not off the registry's own records.
-/

namespace Exclusion

abbrev Held (Op Res : Type) := List (Op × Res)

namespace Held

variable {Op Res : Type} [DecidableEq Op]

def grant (held : Held Op Res) (op : Op) (resources : List Res) : Held Op Res :=
  held ++ resources.map (op, ·)

def release (held : Held Op Res) (op : Op) : Held Op Res := held.filter fun lock => lock.1 ≠ op

def Excludes (conflict : Res → Res → Prop) (held : Held Op Res) : Prop :=
  ∀ lock ∈ held, ∀ other ∈ held, lock.1 ≠ other.1 → ¬ conflict lock.2 other.2

theorem mem_release {held : Held Op Res} {op : Op} {lock : Op × Res} :
    lock ∈ held.release op ↔ lock ∈ held ∧ lock.1 ≠ op := by
  simp [release]

variable {resources : List Res}

omit [DecidableEq Op] in
theorem mem_grant {held : Held Op Res} {op : Op} {lock : Op × Res} :
    lock ∈ held.grant op resources ↔ lock ∈ held ∨ lock.1 = op ∧ lock.2 ∈ resources := by
  obtain ⟨o, res⟩ := lock
  simp only [grant, List.mem_append, List.mem_map, Prod.mk.injEq]
  refine or_congr_right ⟨?_, ?_⟩
  · rintro ⟨r, hr, rfl, rfl⟩
    exact ⟨rfl, hr⟩
  · rintro ⟨rfl, hr⟩
    exact ⟨res, hr, rfl, rfl⟩

variable {conflict : Res → Res → Prop} {held : Held Op Res}

theorem Excludes.release (h : held.Excludes conflict) (op : Op) :
    (held.release op).Excludes conflict := fun lock hlock other hother =>
  h lock (mem_release.mp hlock).1 other (mem_release.mp hother).1

omit [DecidableEq Op] in
theorem Excludes.grant (h : held.Excludes conflict) (hsymm : ∀ r r', conflict r r' → conflict r' r)
    {op : Op} (hnew : ∀ r ∈ resources, ∀ lock ∈ held, lock.1 ≠ op → ¬ conflict r lock.2) :
    (held.grant op resources).Excludes conflict := by
  intro lock hlock other hother hne
  rcases mem_grant.mp hlock with hlock | ⟨hop, hlock⟩ <;>
    rcases mem_grant.mp hother with hother | ⟨hop', hother⟩
  · exact h lock hlock other hother hne
  · exact fun hc => hnew _ hother lock hlock (hop' ▸ hne) (hsymm _ _ hc)
  · exact hnew _ hlock other hother (hop ▸ hne.symm)
  · exact absurd (hop.trans hop'.symm) hne

end Held

/-- A registry with states `σ`. A lock call returns why it is denied, or nothing if it is granted. -/
structure Registry (σ Op Req Res Den : Type) where
  owner : Req → Op
  resources : Req → List Res
  lock : σ → Req → Option Den × σ
  unlock : σ → Op → σ

/-- The calls on a registry. -/
inductive Call (Op Req : Type)
  | lock (request : Req)
  | unlock (op : Op)

/-- The registry, and what is held by the answers it gave. -/
structure Situation (σ Op Res : Type) where
  state : σ
  held : Held Op Res

namespace Registry

variable {σ Op Req Res Den : Type} [DecidableEq Op] (reg : Registry σ Op Req Res Den)

def step (s : Situation σ Op Res) : Call Op Req → Situation σ Op Res
  | .lock request =>
    match reg.lock s.state request with
    | (none, state) => ⟨state, s.held.grant (reg.owner request) (reg.resources request)⟩
    | (some _, state) => ⟨state, s.held⟩
  | .unlock op => ⟨reg.unlock s.state op, s.held.release op⟩

def run (s : Situation σ Op Res) (calls : List (Call Op Req)) : Situation σ Op Res :=
  calls.foldl reg.step s

/-- Every call is made in a situation that meets the condition. -/
def Meets (condition : Situation σ Op Res → Call Op Req → Prop) :
    Situation σ Op Res → List (Call Op Req) → Prop
  | _, [] => True
  | s, call :: calls => condition s call ∧ Meets condition (reg.step s call) calls

variable {reg} {s : Situation σ Op Res}

theorem step_granted {request : Req} {state : σ}
    (h : reg.lock s.state request = (none, state)) :
    reg.step s (.lock request) =
      ⟨state, s.held.grant (reg.owner request) (reg.resources request)⟩ := by
  simp only [step, h]

theorem step_denied {request : Req} {denial : Den} {state : σ}
    (h : reg.lock s.state request = (some denial, state)) :
    reg.step s (.lock request) = ⟨state, s.held⟩ := by
  simp only [step, h]

/-- What the calls keep under the condition holds at the end of the run. -/
theorem run_induction {condition : Situation σ Op Res → Call Op Req → Prop}
    {P : Situation σ Op Res → Prop}
    (hstep : ∀ s call, condition s call → P s → P (reg.step s call)) {calls : List (Call Op Req)}
    (hmeets : reg.Meets condition s calls) (hs : P s) :
    P (reg.run s calls) := by
  induction calls generalizing s with
  | nil => exact hs
  | cons call calls ih => exact ih hmeets.2 (hstep s call hmeets.1 hs)

end Registry

end Exclusion
