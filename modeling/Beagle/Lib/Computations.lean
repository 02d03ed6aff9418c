/-
Computations that thread a state and may stop, and what can be said of how they end.

`Ends allowed Q m` reads: from every state, `m` either gives a value with `Q` or
stops for a reason in `allowed`.  With everything allowed it is partial correctness,
with nothing allowed it is total correctness; the rules are the same for all of them.

Programs that ask.

A program is a value or a question together with what follows each answer.  A run is the
exchanges it makes, one question and one answer each, and its value; nothing is assumed of who
answers.  What holds of every question a program asks, in view of the exchanges before it, is
proved along the program and read off at any exchange of any run.

Computations over a state that may raise and that run within a bound.

A computation that raises keeps the state it has reached, so what went before is not
undone; one that reaches its bound gives nothing.  `After` says what holds of whatever
a computation gives, and `Keeps` what it does to the state however it ends: a relation
that is reflexive and transitive is kept by a program as soon as its steps keep it.
-/
import Mathlib

namespace Beagle.Lib

open List

section

/-- A computation over a state `σ` that may stop with an `ε`. -/
abbrev Run (σ ε : Type) := StateT σ (Except ε)

variable {σ ε α β : Type}

/-- Stop here. -/
def halt (stop : ε) : Run σ ε α := fun _ => .error stop

/-- Run a computation for each element and append what they give. -/
def collect (f : α → Run σ ε (List β)) : List α → Run σ ε (List β)
  | [] => pure []
  | a :: rest => do
      let found ← f a
      let others ← collect f rest
      pure (found ++ others)

/-- From every state, a value with `Q` or an allowed stop. -/
def Ends (allowed : ε → Prop) (Q : α → Prop) (m : Run σ ε α) : Prop :=
  ∀ s, match m s with
    | .ok (a, _) => Q a
    | .error stop => allowed stop

namespace Ends

variable {al : ε → Prop} {Q : α → Prop} {m : Run σ ε α}

theorem of_ok (h : Ends al Q m) {s s' : σ} {a : α} (hm : m s = .ok (a, s')) : Q a := by
  have := h s
  rw [hm] at this
  exact this

theorem of_error (h : Ends al Q m) {s : σ} {stop : ε} (hm : m s = .error stop) : al stop := by
  have := h s
  rw [hm] at this
  exact this

theorem pure {Q : α → Prop} {a : α} (h : Q a) : Ends al Q (Pure.pure a : Run σ ε α) :=
  fun _ => h

theorem done {a : α} : Ends al (fun _ => True) (Pure.pure a : Run σ ε α) := fun _ => True.intro

theorem halt {Q : α → Prop} {sp : ε} (h : al sp) : Ends al Q (Lib.halt sp : Run σ ε α) :=
  fun _ => h

theorem bind {P : α → Prop} {Q : β → Prop} {m : Run σ ε α} {f : α → Run σ ε β}
    (hm : Ends al P m) (hf : ∀ a, P a → Ends al Q (f a)) : Ends al Q (m >>= f) := by
  intro s
  have hs := hm s
  show match StateT.bind m f s with
    | .ok (b, _) => Q b
    | .error sp => al sp
  unfold StateT.bind
  cases h : m s with
  | error sp =>
    rw [h] at hs
    exact hs
  | ok res =>
    rw [h] at hs
    exact hf res.1 hs res.2

variable {P : α → Prop}

theorem mono (h : Ends al P m) (hpq : ∀ a, P a → Q a) : Ends al Q m := by
  intro s
  have hs := h s
  cases hm : m s with
  | error sp =>
    rw [hm] at hs
    exact hs
  | ok res =>
    rw [hm] at hs
    exact hpq res.1 hs

theorem weaken {a' : ε → Prop} (h : Ends al Q m) (hall : ∀ sp, al sp → a' sp) : Ends a' Q m := by
  intro s
  have hs := h s
  cases hm : m s with
  | error sp =>
    rw [hm] at hs
    exact hall sp hs
  | ok res =>
    rw [hm] at hs
    exact hs

/-- What holds of every value holds together with what else is known. -/
theorem and (hP : Ends al P m) (hQ : Ends (fun _ => True) Q m) :
    Ends al (fun a => P a ∧ Q a) m := by
  intro s
  have hp := hP s
  have hq := hQ s
  cases hm : m s with
  | error sp =>
    rw [hm] at hp
    exact hp
  | ok fd =>
    rw [hm] at hp hq
    exact ⟨hp, hq⟩

/-- Where nothing may stop it, a computation gives a value. -/
theorem total (h : Ends (fun _ => False) Q m) (s : σ) : ∃ a s', m s = .ok (a, s') ∧ Q a := by
  have hs := h s
  cases hm : m s with
  | error sp =>
    rw [hm] at hs
    exact hs.elim
  | ok fd =>
    rw [hm] at hs
    exact ⟨fd.1, fd.2, rfl, hs⟩

theorem trivial : Ends (fun _ => True) (fun _ => True) m := by
  intro s
  cases m s with
  | error _ => exact True.intro
  | ok _ => exact True.intro

/-- What each element's results have in common, all the results have. -/
theorem collect {P : α → Prop} {Q : β → Prop} {f : α → Run σ ε (List β)}
    (hf : ∀ a, P a → Ends al (fun fd => ∀ b ∈ fd, Q b) (f a)) :
    ∀ {as : List α}, (∀ a ∈ as, P a) → Ends al (fun fd => ∀ b ∈ fd, Q b) (Lib.collect f as)
  | [], _ => Ends.pure (by simp)
  | a :: as, h => by
    refine Ends.bind (hf a (h a (by simp))) fun fd hfo => ?_
    refine Ends.bind (collect hf fun b hb => h b (by simp [hb])) fun os hos => ?_
    refine Ends.pure ?_
    intro b hb
    rcases List.mem_append.mp hb with hb | hb
    · exact hfo b hb
    · exact hos b hb

end Ends

variable {m : Run σ ε α} {f : α → Run σ ε β} {s : σ}

/-- A bind that gives a value ran both of its parts. -/
theorem bind_eq_ok {s'' : σ} {b : β} (h : (m >>= f) s = .ok (b, s'')) :
    ∃ a s', m s = .ok (a, s') ∧ f a s' = .ok (b, s'') := by
  have h' : StateT.bind m f s = .ok (b, s'') := h
  unfold StateT.bind at h'
  cases hm : m s with
  | error sp =>
    rw [hm] at h'
    simp [Bind.bind, Except.bind] at h'
  | ok res =>
    rw [hm] at h'
    exact ⟨res.1, res.2, rfl, h'⟩

theorem bind_of_ok {s' : σ} {a : α} (h : m s = .ok (a, s')) : (m >>= f) s = f a s' := by
  show StateT.bind m f s = f a s'
  unfold StateT.bind
  rw [h]
  rfl

theorem bind_of_error {stop : ε} (h : m s = .error stop) : (m >>= f) s = .error stop := by
  show StateT.bind m f s = .error stop
  unfold StateT.bind
  rw [h]
  rfl

end

inductive Asking (Question : Type) (Answer : Question → Type) (α : Type) where
  | done (value : α)
  | ask (question : Question) (next : Answer question → Asking Question Answer α)

namespace Asking

variable {Question : Type} {Answer : Question → Type} {α β : Type}

/-- A question and its answer. -/
abbrev Exchange (Answer : Question → Type) := Σ question, Answer question

/-- What the program asks first. -/
def first : Asking Question Answer α → Option Question
  | .done _ => none
  | .ask question _ => some question

def andThen : Asking Question Answer α → (α → Asking Question Answer β) → Asking Question Answer β
  | .done value, next => next value
  | .ask question later, next => .ask question fun answer => (later answer).andThen next

/-- The exchanges of a run and its value. -/
inductive Run : Asking Question Answer α → List (Exchange Answer) → α → Prop where
  | done (value : α) : Run (.done value) [] value
  | ask {question : Question} {next : Answer question → Asking Question Answer α}
      {answer : Answer question} {exchanges : List (Exchange Answer)} {value : α}
      (later : Run (next answer) exchanges value) :
      Run (.ask question next) (⟨question, answer⟩ :: exchanges) value

variable {es : List (Exchange Answer)} {p : Asking Question Answer α}

theorem run_done {value v' : α} : Run (.done value : Asking Question Answer α) es v' ↔
      es = [] ∧ v' = value := by
  constructor
  · intro h
    cases h with
    | done => exact ⟨rfl, rfl⟩
  · rintro ⟨rfl, rfl⟩
    exact .done v'

theorem run_ask {q : Question} {next : Answer q → Asking Question Answer α}
    {value : α} :
    Run (.ask q next) es value ↔ ∃ an l, es = ⟨q, an⟩ :: l ∧ Run (next an) l value := by
  constructor
  · intro h
    cases h with
    | ask l => exact ⟨_, _, rfl, l⟩
  · rintro ⟨an, l, rfl, h⟩
    exact .ask h

variable {next : α → Asking Question Answer β}

theorem run_andThen {value : β} :
    Run (p.andThen next) es value ↔
      ∃ fr b mid, es = fr ++ b ∧ Run p fr mid ∧ Run (next mid) b value := by
  induction p generalizing es with
  | done mid =>
    show Run (next mid) es value ↔ _
    constructor
    · exact fun h => ⟨[], es, mid, rfl, .done mid, h⟩
    · rintro ⟨fr, b, m', rfl, hd, h⟩
      obtain ⟨rfl, rfl⟩ := run_done.mp hd
      exact h
  | ask q l ih =>
    show Run (.ask q fun an => (l an).andThen next) es value ↔ _
    rw [run_ask]
    constructor
    · rintro ⟨an, os, rfl, h⟩
      obtain ⟨fr, b, mid, rfl, hfr, hb⟩ := (ih an).mp h
      exact ⟨_ :: fr, b, mid, rfl, .ask hfr, hb⟩
    · rintro ⟨fr, b, mid, rfl, hfr, hb⟩
      obtain ⟨an, os, rfl, hos⟩ := run_ask.mp hfr
      exact ⟨an, os ++ b, rfl, (ih an).mpr ⟨os, b, mid, rfl, hos, hb⟩⟩

/-! ### Questions that are asked in time -/

/-- Behind these exchanges, every question of the program is one that may be asked. -/
def Guarded (may : List (Exchange Answer) → Question → Prop) :
    List (Exchange Answer) → Asking Question Answer α → Prop
  | _, .done _ => True
  | before, .ask question next =>
    may before question ∧ ∀ answer, Guarded may (before ++ [⟨question, answer⟩]) (next answer)

variable {ma : List (Exchange Answer) → Question → Prop} {before : List (Exchange Answer)}

theorem Guarded.andThen (hfst : Guarded ma before p)
    (hn : ∀ es v, Run p es v → Guarded ma (before ++ es) (next v)) :
    Guarded ma before (p.andThen next) := by
  induction p generalizing before with
  | done v =>
    have h := hn [] v (.done v)
    rwa [append_nil] at h
  | ask q l ih =>
    obtain ⟨hmay, hl⟩ := hfst
    refine ⟨hmay, fun an => ih an (hl an) fun es v hrun => ?_⟩
    rw [append_assoc]
    exact hn _ v (.ask hrun)

/-- Every question of a run was asked when it may be. -/
theorem Guarded.of_run {v : α} (hg : Guarded ma before p)
    (hrun : Run p es v) {fr b : List (Exchange Answer)}
    {ex : Exchange Answer} (hsp : es = fr ++ ex :: b) :
    ma (before ++ fr) ex.1 := by
  induction hrun generalizing before fr with
  | done => simp at hsp
  | @ask q next an os v l ih =>
    obtain ⟨hmay, hl⟩ := hg
    cases fr with
    | nil =>
      rw [nil_append, List.cons.injEq] at hsp
      rw [append_nil, ← hsp.1]
      exact hmay
    | cons h' fr =>
      rw [cons_append, List.cons.injEq] at hsp
      obtain ⟨rfl, hos⟩ := hsp
      have h := ih (hl an) hos
      rwa [append_assoc] at h

end Asking

/-- A result or a raised `ε`, with the state that is left; nothing where the bound is reached. -/
def Attempt (σ ε α : Type) : Type := σ → Option (Except ε α × σ)

namespace Attempt

variable {σ ε α β : Type}

/-- Go on with the result, unless the computation raised. -/
def andThen (m : Attempt σ ε α) (f : α → Attempt σ ε β) : Attempt σ ε β := fun s =>
  match m s with
  | none => none
  | some (.error e, s') => some (.error e, s')
  | some (.ok a, s') => f a s'

instance : Monad (Attempt σ ε) where
  pure a := fun s => some (.ok a, s)
  bind := andThen

def raise (e : ε) : Attempt σ ε α := fun s => some (.error e, s)

/-- The bound is reached. -/
def spent : Attempt σ ε α := fun _ => none

def get : Attempt σ ε σ := fun s => some (.ok s, s)

def modify (f : σ → σ) : Attempt σ ε Unit := fun s => some (.ok (), f s)

/-! ### Lists -/

/-- From left to right, with all the results. -/
def each (f : α → Attempt σ ε β) : List α → Attempt σ ε (List β)
  | [] => pure []
  | a :: rest => do
      let b ← f a
      let bs ← each f rest
      pure (b :: bs)

/-- From left to right up to the first that is true. -/
def any (f : α → Attempt σ ε Bool) : List α → Attempt σ ε Bool
  | [] => pure false
  | a :: rest => do
      if (← f a) then pure true else any f rest

/-- From left to right up to the first that is false. -/
def all (f : α → Attempt σ ε Bool) : List α → Attempt σ ε Bool
  | [] => pure true
  | a :: rest => do
      if (← f a) then all f rest else pure false

/-! ### What a computation gives -/

theorem pure_run (a : α) (s : σ) : (pure a : Attempt σ ε α) s = some (.ok a, s) := rfl

theorem get_run (s : σ) : (get : Attempt σ ε σ) s = some (.ok s, s) := rfl

theorem bind_run (m : Attempt σ ε α) (f : α → Attempt σ ε β) (s : σ) :
    (m >>= f) s = andThen m f s := rfl

variable {m : Attempt σ ε α} {f : α → Attempt σ ε β} {s : σ} {a : α} {s' : σ} {e : ε}
  {P : Except ε α → σ → Prop}

theorem bind_of_ok (h : m s = some (.ok a, s')) : (m >>= f) s = f a s' := by
  rw [bind_run, andThen, h]

theorem bind_of_error (h : m s = some (.error e, s')) : (m >>= f) s = some (.error e, s') := by
  rw [bind_run, andThen, h]

/-- A bind that gives something ran its first part, and its second unless the first raised. -/
theorem bind_cases {s'' : σ} {r : Except ε β} (h : (m >>= f) s = some (r, s'')) :
    (∃ e, m s = some (.error e, s'') ∧ r = .error e) ∨
      ∃ a s', m s = some (.ok a, s') ∧ f a s' = some (r, s'') := by
  rw [bind_run, andThen] at h
  cases hm : m s with
  | none => rw [hm] at h; exact nomatch h
  | some res =>
    rw [hm] at h
    obtain ⟨oc, s'⟩ := res
    cases oc with
    | error e =>
      obtain ⟨rfl, rfl⟩ := Prod.mk.inj (Option.some.inj h)
      exact Or.inl ⟨e, rfl, rfl⟩
    | ok a => exact Or.inr ⟨a, s', rfl, h⟩

/-- `Q` holds of what the computation gives from the state. -/
def After (m : Attempt σ ε α) (s : σ) (Q : Except ε α → σ → Prop) : Prop :=
  ∀ r s', m s = some (r, s') → Q r s'

theorem After.mono {Q : Except ε α → σ → Prop} (h : m.After s P) (hpq : ∀ r s', P r s' → Q r s') :
    m.After s Q :=
  fun r s' hm => hpq r s' (h r s' hm)

theorem After.pure {Q : Except ε α → σ → Prop} (h : Q (.ok a) s) :
    (Pure.pure a : Attempt σ ε α).After s Q := by
  intro r s' hm
  obtain ⟨rfl, rfl⟩ := Prod.mk.inj (Option.some.inj hm)
  exact h

theorem After.bind {Q : Except ε β → σ → Prop} (hm : m.After s P)
    (herr : ∀ e s', P (.error e) s' → Q (.error e) s')
    (hok : ∀ a s', P (.ok a) s' → (f a).After s' Q) : (m >>= f).After s Q := by
  intro r s'' h
  rcases bind_cases h with ⟨e, hr, rfl⟩ | ⟨a, s', hfst, hsnd⟩
  · exact herr e s'' (hm _ _ hr)
  · exact hok a s' (hm _ _ hfst) r s'' hsnd

/-! ### What a computation does to the state -/

/-- The state before and the state after are related, however the computation ends. -/
def Keeps (R : σ → σ → Prop) (m : Attempt σ ε α) : Prop := ∀ s, m.After s fun _ s' => R s s'

namespace Keeps

variable {R : σ → σ → Prop}

theorem pure (hr : ∀ s, R s s) (a : α) : Keeps R (Pure.pure a : Attempt σ ε α) :=
  fun s => After.pure (hr s)

theorem raise (hr : ∀ s, R s s) (e : ε) : Keeps R (Attempt.raise e : Attempt σ ε α) := by
  intro s r s' h
  obtain ⟨rfl, rfl⟩ := Prod.mk.inj (Option.some.inj h)
  exact hr s

theorem spent : Keeps R (Attempt.spent : Attempt σ ε α) := fun _ _ _ h => nomatch h

theorem bind (htr : ∀ ⦃a b c⦄, R a b → R b c → R a c) {m : Attempt σ ε α}
    {f : α → Attempt σ ε β} (hm : Keeps R m) (hf : ∀ a, Keeps R (f a)) : Keeps R (m >>= f) := by
  intro s
  exact After.bind (hm s) (fun _ _ h => h) fun a s' h r s'' h' => htr h (hf a s' r s'' h')

theorem each (hr : ∀ s, R s s) (htr : ∀ ⦃a b c⦄, R a b → R b c → R a c)
    {f : α → Attempt σ ε β} (hf : ∀ a, Keeps R (f a)) : ∀ as : List α, Keeps R (Attempt.each f as)
  | [] => pure hr []
  | a :: rest => by
    refine bind htr (hf a) fun b => ?_
    exact bind htr (each hr htr hf rest) fun bs => pure hr (b :: bs)

theorem any (hr : ∀ s, R s s) (htr : ∀ ⦃a b c⦄, R a b → R b c → R a c)
    {f : α → Attempt σ ε Bool} (hf : ∀ a, Keeps R (f a)) : ∀ as : List α, Keeps R (Attempt.any f as)
  | [] => pure hr false
  | a :: rest => by
    refine bind htr (hf a) fun fd => ?_
    cases fd with
    | true => exact pure hr true
    | false => exact any hr htr hf rest

theorem all (hr : ∀ s, R s s) (htr : ∀ ⦃a b c⦄, R a b → R b c → R a c)
    {f : α → Attempt σ ε Bool} (hf : ∀ a, Keeps R (f a)) : ∀ as : List α, Keeps R (Attempt.all f as)
  | [] => pure hr true
  | a :: rest => by
    refine bind htr (hf a) fun fd => ?_
    cases fd with
    | true => exact all hr htr hf rest
    | false => exact pure hr false

end Keeps

/-! ### What a computation gives under an invariant -/

/-- From a state with the invariant, the state that is left has it and `Q` holds of the result. -/
def Meets (I : σ → Prop) (m : Attempt σ ε α) (Q : Except ε α → Prop) : Prop :=
  ∀ s, I s → m.After s fun r s' => I s' ∧ Q r

namespace Meets

variable {I : σ → Prop}

theorem pure {Q : Except ε α → Prop} {a : α} (h : Q (.ok a)) :
    Meets I (Pure.pure a : Attempt σ ε α) Q :=
  fun _ hs => After.pure ⟨hs, h⟩

theorem raise {Q : Except ε α → Prop} {e : ε} (h : Q (.error e)) :
    Meets I (Attempt.raise e : Attempt σ ε α) Q := by
  intro s hs r s' hm
  obtain ⟨rfl, rfl⟩ := Prod.mk.inj (Option.some.inj hm)
  exact ⟨hs, h⟩

theorem spent {Q : Except ε α → Prop} : Meets I (Attempt.spent : Attempt σ ε α) Q :=
  fun _ _ _ _ h => nomatch h

theorem bind {m : Attempt σ ε α} {f : α → Attempt σ ε β} {P : Except ε α → Prop}
    {Q : Except ε β → Prop} (hm : Meets I m P) (herr : ∀ e, P (.error e) → Q (.error e))
    (hok : ∀ a, P (.ok a) → Meets I (f a) Q) : Meets I (m >>= f) Q := by
  intro s hs
  refine After.bind (hm s hs) (fun e s' h => ⟨h.1, herr e h.2⟩) ?_
  intro a s' h
  exact hok a h.2 s' h.1

theorem mono {m : Attempt σ ε α} {P Q : Except ε α → Prop} (h : Meets I m P)
    (hpq : ∀ r, P r → Q r) : Meets I m Q :=
  fun s hs => (h s hs).mono fun r _ hr => ⟨hr.1, hpq r hr.2⟩

/-- A computation whose results do not matter keeps the invariant. -/
theorem of_keeps {R : σ → σ → Prop} {m : Attempt σ ε α} (hm : Keeps R m)
    (hI : ∀ s s', R s s' → I s → I s') : Meets I m fun _ => True :=
  fun s hs r s' h => ⟨hI s s' (hm s r s' h) hs, True.intro⟩

/-- A bind gives what a bind of pure results gives, part by part. -/
theorem bind_eq {m : Attempt σ ε α} {f : α → Attempt σ ε β} {pm : Except ε α}
    {pureF : α → Except ε β} (hm : Meets I m fun r => r = pm)
    (hf : ∀ a, pm = .ok a → Meets I (f a) fun r => r = pureF a) :
    Meets I (m >>= f) fun r => r = pm >>= pureF := by
  refine bind hm ?_ ?_
  · rintro e rfl
    rfl
  · rintro a rfl
    exact hf a rfl

/-- Results that are those of a pure function, element by element. -/
theorem each {f : α → Attempt σ ε β} {g : α → Except ε β} {as : List α}
    (hf : ∀ a ∈ as, Meets I (f a) fun r => r = g a) :
    Meets I (Attempt.each f as) fun r => r = as.mapM g := by
  induction as with
  | nil => exact pure rfl
  | cons a rs ih =>
    rw [mapM_cons]
    refine bind_eq (hf a mem_cons_self) fun b _ => ?_
    refine bind_eq (ih fun o ho => hf o (mem_cons_of_mem _ ho)) fun bs _ => ?_
    exact pure rfl

/-- A step for each element keeps the invariant. -/
theorem each_true {f : α → Attempt σ ε β} {as : List α}
    (hf : ∀ a ∈ as, Meets I (f a) fun _ => True) :
    Meets I (Attempt.each f as) fun _ => True := by
  induction as with
  | nil => exact pure True.intro
  | cons a r ih =>
    refine bind (hf a mem_cons_self) (fun _ _ => True.intro) fun b _ => ?_
    refine bind (ih fun o ho => hf o (mem_cons_of_mem _ ho))
      (fun _ _ => True.intro) fun bs _ => pure True.intro

/-- The tests are true of the elements with `P`. -/
theorem any {f : α → Attempt σ ε Bool} {P : α → Prop} {as : List α}
    (hf : ∀ a ∈ as, Meets I (f a) fun r => ∃ fd, r = .ok fd ∧ (fd = true ↔ P a)) :
    Meets I (Attempt.any f as) fun r =>
      ∃ fd, r = .ok fd ∧ (fd = true ↔ ∃ a ∈ as, P a) := by
  induction as with
  | nil => exact pure ⟨false, rfl, by simp⟩
  | cons a rs ih =>
    refine bind (hf a mem_cons_self) (fun e h => ?_) fun fd h => ?_
    · obtain ⟨_, h, _⟩ := h
      exact nomatch h
    · obtain ⟨_, hok, hfo⟩ := h
      obtain rfl := Except.ok.inj hok
      cases fd with
      | true => exact pure ⟨true, rfl, by simp [hfo.mp rfl]⟩
      | false =>
        refine (ih fun o ho => hf o (mem_cons_of_mem _ ho)).mono ?_
        rintro r ⟨l, rfl, hl⟩
        have hnot : ¬P a := fun h => nomatch hfo.mpr h
        exact ⟨l, rfl, by simp [hl, hnot]⟩

end Meets

/-! ### What ends within its bound -/

/-- The computation gives something from the state. -/
def Ends (m : Attempt σ ε α) (s : σ) : Prop := ∃ r s', m s = some (r, s')

theorem Ends.bind (hm : m.Ends s) (hf : m.After s fun r s' => ∀ a, r = .ok a → (f a).Ends s') :
    (m >>= f).Ends s := by
  obtain ⟨r, s', hrun⟩ := hm
  cases r with
  | error e => exact ⟨_, _, bind_of_error hrun⟩
  | ok a =>
    obtain ⟨r', s'', hsnd⟩ := hf _ _ hrun a rfl
    exact ⟨r', s'', (bind_of_ok hrun).trans hsnd⟩

theorem Ends.pure : (Pure.pure a : Attempt σ ε α).Ends s := ⟨_, _, rfl⟩

theorem Ends.raise : (Attempt.raise e : Attempt σ ε α).Ends s := ⟨_, _, rfl⟩

variable {as : List α}

/-- What keeps a relation to a state ends over a list, if it ends for each element wherever the
    relation leads. -/
theorem Ends.each {R : σ → σ → Prop} (hr : ∀ s, R s s)
    (htr : ∀ ⦃a b c⦄, R a b → R b c → R a c) (hk : ∀ a, Keeps R (f a))
    (he : ∀ a ∈ as, ∀ s', R s s' → (f a).Ends s') : (Attempt.each f as).Ends s := by
  induction as generalizing s with
  | nil => exact Ends.pure
  | cons a rs ih =>
    refine Ends.bind (he a mem_cons_self s (hr s)) ?_
    intro r s' hrun b _
    have hs := hk a s r s' hrun
    refine Ends.bind (ih fun o ho s'' h => ?_) fun _ _ _ _ _ => Ends.pure
    exact he o (mem_cons_of_mem _ ho) s'' (htr hs h)

theorem Ends.any {R : σ → σ → Prop} (hr : ∀ s, R s s) (htr : ∀ ⦃a b c⦄, R a b → R b c → R a c)
    {f : α → Attempt σ ε Bool} (hk : ∀ a, Keeps R (f a))
    (he : ∀ a ∈ as, ∀ s', R s s' → (f a).Ends s') : (Attempt.any f as).Ends s := by
  induction as generalizing s with
  | nil => exact Ends.pure
  | cons a rs ih =>
    refine Ends.bind (he a mem_cons_self s (hr s)) ?_
    intro r s' hrun fd _
    have hs := hk a s r s' hrun
    cases fd with
    | true => exact Ends.pure
    | false =>
      refine ih fun o ho s'' h => ?_
      exact he o (mem_cons_of_mem _ ho) s'' (htr hs h)

end Attempt

end Beagle.Lib
