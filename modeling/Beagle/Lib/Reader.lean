/-
Readers: programs that consume a list from the front.

A reader takes what is left to read, and a state beside it, to a value, to what is
left after it and to a new state; or it fails.  It is exact when a successful run
looked only at what it consumed: the run would have gone the same way whatever
came next.  The exact readers are closed under everything a parser is written
with, and an exact reader never accepts a list and a longer one that continues it
to different ends.
-/
import Mathlib

namespace Beagle.Lib

open List

/-- Two steps that may fail succeed when both do. -/
theorem except_bind_ok {ε α γ : Type} {x : Except ε α} {f : α → Except ε γ} {c : γ} :
    (x >>= f) = .ok c ↔ ∃ a, x = .ok a ∧ f a = .ok c := by
  cases x with
  | error e => exact ⟨nofun, fun ⟨a, ha, _⟩ => nomatch ha⟩
  | ok a => exact ⟨fun h => ⟨a, rfl, h⟩, fun ⟨_, ha, h⟩ => by cases ha; exact h⟩

theorem except_map_ok {ε α γ : Type} {x : Except ε α} {f : α → γ} {c : γ} :
    x.map f = .ok c ↔ ∃ a, x = .ok a ∧ f a = c := by
  cases x with
  | error e => simp [Except.map]
  | ok a => simp [Except.map]

/-- What is left to read, and the state kept beside it. -/
structure Input (β σ : Type) where
  rest : List β
  state : σ

abbrev Reader (β σ ε α : Type) := StateT (Input β σ) (Except ε) α

namespace Reader

variable {β σ ε α γ : Type}

/-- Take the next `n` elements, or fail. -/
def takeN (n : Nat) (e : ε) : Reader β σ ε (List β) := fun input =>
  if input.rest.length < n then .error e
  else .ok (input.rest.take n, { input with rest := input.rest.drop n })

def getState : Reader β σ ε σ := fun input => .ok (input.state, input)

def setState (s : σ) : Reader β σ ε Unit := fun input => .ok ((), { input with state := s })

def fail (e : ε) : Reader β σ ε α := fun _ => .error e

/-! ### Running -/

variable {τ : Type}

theorem run_bind (p : StateT τ (Except ε) α) (f : α → StateT τ (Except ε) γ) (s : τ) :
    (p >>= f) s = (p s).bind fun out => f out.1 out.2 := rfl

/-- A sequence of two programs succeeds when both do. -/
theorem bind_ok {p : StateT τ (Except ε) α} {f : α → StateT τ (Except ε) γ} {s : τ} {out : γ × τ} :
    (p >>= f) s = .ok out ↔ ∃ a mid, p s = .ok (a, mid) ∧ f a mid = .ok out := by
  rw [run_bind]
  constructor
  · intro h
    cases hp : p s with
    | error e => rw [hp] at h; cases h
    | ok mid => rw [hp] at h; exact ⟨mid.1, mid.2, rfl, h⟩
  · rintro ⟨a, mid, hp, hf⟩
    rw [hp]
    exact hf

/-! ### Reading exactly -/

/-- From `s`, the reader consumes just `used` and gives `a` and `s'`, whatever follows. -/
def Reads (p : Reader β σ ε α) (used : List β) (s : σ) (a : α) (s' : σ) : Prop :=
  ∀ more : List β, p ⟨used ++ more, s⟩ = .ok (a, ⟨more, s'⟩)

/-- Every successful run consumes a front part of the input and looks at nothing else. -/
def Exact (p : Reader β σ ε α) : Prop :=
  ∀ input a out, p input = .ok (a, out) →
    ∃ used, input.rest = used ++ out.rest ∧ Reads p used input.state a out.state

theorem Reads.pure (a : α) (s : σ) : Reads (pure a : Reader β σ ε α) [] s a s := fun _ => rfl

variable {p : Reader β σ ε α} {s s' : σ} {a : α} {f : α → Reader β σ ε γ} {s'' : σ}

theorem Reads.bind {u u' : List β} {c : γ} (hp : Reads p u s a s')
    (hf : Reads (f a) u' s' c s'') : Reads (p >>= f) (u ++ u') s c s'' := by
  intro m
  rw [run_bind, append_assoc, hp]
  exact hf m

theorem Reads.takeN (u : List β) (s : σ) (e : ε) :
    Reads (takeN u.length e : Reader β σ ε (List β)) u s u s := by
  intro m
  unfold Reader.takeN
  rw [if_neg (by rw [length_append]; omega), take_left, drop_left]

theorem Reads.getState (s : σ) : Reads (getState : Reader β σ ε σ) [] s s s := fun _ => rfl

theorem Reads.setState (s s' : σ) : Reads (setState s' : Reader β σ ε Unit) [] s () s' :=
  fun _ => rfl

theorem Exact.pure (a : α) : Exact (pure a : Reader β σ ε α) := by
  intro input b out h
  cases h
  exact ⟨[], rfl, Reads.pure _ _⟩

theorem Exact.bind (hp : Exact p) (hf : ∀ a, Exact (f a)) : Exact (p >>= f) := by
  intro i c out h
  obtain ⟨a, mid, h1, h2⟩ := bind_ok.mp h
  obtain ⟨u, hu, hr⟩ := hp _ _ _ h1
  obtain ⟨u', hu', hr'⟩ := hf a _ _ _ h2
  refine ⟨u ++ u', ?_, hr.bind hr'⟩
  rw [hu, hu', append_assoc]

theorem Exact.fail (e : ε) : Exact (fail e : Reader β σ ε α) := by
  intro input a out h
  cases h

theorem Exact.takeN (n : Nat) (e : ε) : Exact (takeN n e : Reader β σ ε (List β)) := by
  intro input bs out h
  unfold Reader.takeN at h
  by_cases hlt : input.rest.length < n
  · rw [if_pos hlt] at h
    cases h
  · rw [if_neg hlt] at h
    cases h
    refine ⟨input.rest.take n, (take_append_drop n _).symm, ?_⟩
    have hlen : (input.rest.take n).length = n := by rw [length_take]; omega
    have := Reads.takeN (σ := σ) (input.rest.take n) input.state e
    rw [hlen] at this
    exact this

theorem Exact.getState : Exact (getState : Reader β σ ε σ) := by
  intro input s out h
  cases h
  exact ⟨[], rfl, Reads.getState _⟩

theorem Exact.setState (s : σ) : Exact (setState s : Reader β σ ε Unit) := by
  intro input u out h
  cases h
  exact ⟨[], rfl, Reads.setState _ _⟩

theorem Exact.ite {c : Prop} [Decidable c] {p q : Reader β σ ε α} (hp : Exact p) (hq : Exact q) :
    Exact (if c then p else q) := by
  by_cases h : c
  · rw [if_pos h]; exact hp
  · rw [if_neg h]; exact hq

/-- Longer input changes nothing but what is left. -/
theorem Exact.extend (hp : Exact p) {r r' : List β} (h : p ⟨r, s⟩ = .ok (a, ⟨r', s'⟩))
    (m : List β) : p ⟨r ++ m, s⟩ = .ok (a, ⟨r' ++ m, s'⟩) := by
  obtain ⟨u, hu, hr⟩ := hp _ _ _ h
  dsimp only at hu
  rw [hu, append_assoc]
  exact hr _

/-- **An exact reader that reads a list to its end leaves whatever is put after it**, so it does
    not read a longer list to its end. -/
theorem Exact.ends_once (hp : Exact p) {bs m : List β} {c : α}
    (h : p ⟨bs, s⟩ = .ok (a, ⟨[], s'⟩)) (h' : p ⟨bs ++ m, s⟩ = .ok (c, ⟨[], s''⟩)) :
    m = [] := by
  have := hp.extend h m
  rw [h'] at this
  simpa using (congrArg (fun out => out.2.rest) (Except.ok.inj this)).symm

end Reader

end Beagle.Lib
