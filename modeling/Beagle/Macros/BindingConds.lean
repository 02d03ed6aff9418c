/-
Binding conditionals.

`if-let`, `when-let`, `if-some` and `when-some` are lowered to `let` and `if`. A plain name is bound
and tested itself, around both branches; any other binder waits behind a temporary for the branch it
is for. So the failed value of a plain name is what the other branch reads under that name.
-/
import Mathlib

namespace Beagle.BindingConds

variable {ω β ν σ : Type}

/-! ### Forms -/

/-- A name, or a typed or destructuring binder. -/
inductive Binder (β : Type) where
  | name (symbol : String)
  | other (binder : β)

/-- An expression as far as the lowering builds it. -/
inductive Form (ω β : Type) where
  | name (symbol : String)
  | letIn (binder : Binder β) (value body : Form ω β)
  | ifElse (test success failure : Form ω β)
  | ifThen (test success : Form ω β)
  | doAll (body : List (Form ω β))
  | call (function : String) (argument : Form ω β)
  | other (form : ω)

inductive Head where
  | ifLet
  | whenLet
  | ifSome
  | whenSome
deriving DecidableEq

/-! ### The lowering -/

def freshLoweredSym (base : String) (counter : Nat) : String := base ++ "__" ++ toString counter

def successTest (head : Head) (symbol : String) : Form ω β :=
  match head with
  | .ifLet | .whenLet => .name symbol
  | .ifSome | .whenSome => .call "not" (.call "nil?" (.name symbol))

/-- The branches of a form: what the value is bound for, and what is behind it. A form of another
length is an error. -/
def branches (head : Head) (rest : List (Form ω β)) : Option (Form ω β × Option (Form ω β)) :=
  match head, rest with
  | .ifLet, [success, failure] | .ifSome, [success, failure] => some (success, some failure)
  | .whenLet, _ :: _ | .whenSome, _ :: _ => some (.doAll rest, none)
  | _, _ => none

def conditional (test success : Form ω β) : Option (Form ω β) → Form ω β
  | some failure => .ifElse test success failure
  | none => .ifThen test success

/-- The lowered form, and the counter behind the temporaries that it took. -/
def lowerBindingCond (counter : Nat) (head : Head) (binder : Binder β) (value : Form ω β)
    (rest : List (Form ω β)) : Option (Form ω β × Nat) := do
  let (success, failure) ← branches head rest
  match binder with
  | .name symbol =>
    some (.letIn binder value (conditional (successTest head symbol) success failure), counter)
  | .other _ =>
    let g := freshLoweredSym "bind" counter
    some (.letIn (.name g) value
      (conditional (successTest head g) (.letIn binder (.name g) success) failure), counter + 1)

/-! ### Meaning -/

/-- The local variables. -/
abbrev Env (ν : Type) := String → Option ν

def Env.bind (env : Env ν) (symbol : String) (value : ν) : Env ν :=
  fun other => if other = symbol then some value else env other

/-- What the core language is made of: values `ν`, and a state `σ` that evaluation runs through and
may fail in. The names `not` and `nil?` have their core meaning where no local variable has them. -/
structure Semantics (ω β ν σ : Type) where
  nil : ν
  ofBool : Bool → ν
  truthy : ν → Bool
  isNil : ν → Bool
  global (symbol : String) (state : σ) : Option (ν × σ)
  apply (function argument : ν) (state : σ) : Option (ν × σ)
  core (function : String) (argument : ν) (state : σ) : Option (ν × σ)
  other (form : ω) (env : Env ν) (state : σ) : Option (ν × σ)
  destructure (binder : β) (value : ν) (env : Env ν) (state : σ) : Option (Env ν × σ)
  truthy_ofBool (b : Bool) : truthy (ofBool b) = b
  core_not (value : ν) (state : σ) : core "not" value state = some (ofBool (!truthy value), state)
  core_nil (value : ν) (state : σ) : core "nil?" value state = some (ofBool (isNil value), state)

namespace Semantics

variable (S : Semantics ω β ν σ)

def bind (binder : Binder β) (value : ν) (env : Env ν) (state : σ) : Option (Env ν × σ) :=
  match binder with
  | .name symbol => some (env.bind symbol value, state)
  | .other binder => S.destructure binder value env state

mutual

def evaluate : Form ω β → Env ν → σ → Option (ν × σ)
  | .name symbol, env, state =>
    match env symbol with
    | some value => some (value, state)
    | none => S.global symbol state
  | .letIn binder value body, env, state =>
    (evaluate value env state).bind fun bound =>
      (S.bind binder bound.1 env bound.2).bind fun inner => evaluate body inner.1 inner.2
  | .ifElse test success failure, env, state =>
    (evaluate test env state).bind fun verdict =>
      if S.truthy verdict.1 then evaluate success env verdict.2 else evaluate failure env verdict.2
  | .ifThen test success, env, state =>
    (evaluate test env state).bind fun verdict =>
      if S.truthy verdict.1 then evaluate success env verdict.2 else some (S.nil, verdict.2)
  | .doAll body, env, state => evaluateAll body env state
  | .call function argument, env, state =>
    (evaluate argument env state).bind fun passed =>
      match env function with
      | some value => S.apply value passed.1 passed.2
      | none => S.core function passed.1 passed.2
  | .other form, env, state => S.other form env state

def evaluateAll : List (Form ω β) → Env ν → σ → Option (ν × σ)
  | [], _, state => some (S.nil, state)
  | [form], env, state => evaluate form env state
  | form :: forms, env, state =>
    (evaluate form env state).bind fun first => evaluateAll forms env first.2

end

/-- The verdict on the value of a form. -/
def passes (head : Head) (value : ν) : Bool :=
  match head with
  | .ifLet | .whenLet => S.truthy value
  | .ifSome | .whenSome => !S.isNil value

def failed (failure : Option (Form ω β)) (env : Env ν) (state : σ) : Option (ν × σ) :=
  match failure with
  | some failure => S.evaluate failure env state
  | none => some (S.nil, state)

/-- The reference meaning: the value once, outside; the binder around the success branch alone. -/
def reference (head : Head) (binder : Binder β) (value success : Form ω β)
    (failure : Option (Form ω β)) (env : Env ν) (state : σ) : Option (ν × σ) :=
  (S.evaluate value env state).bind fun bound =>
    if S.passes head bound.1 then
      (S.bind binder bound.1 env bound.2).bind fun inner => S.evaluate success inner.1 inner.2
    else S.failed failure env bound.2

/-! ### When the lowering means the same -/

/-- What the lowering binds around the test. -/
def tested (counter : Nat) : Binder β → String
  | .name symbol => symbol
  | .other _ => freshLoweredSym "bind" counter

/-- The test of `if-some` and `when-some` is made with the core's functions. -/
def CoreVisible (head : Head) (symbol : String) (env : Env ν) : Prop :=
  head = .ifSome ∨ head = .whenSome → ∀ function ∈ ["not", "nil?"],
    function ≠ symbol ∧ env function = none

/-- The branch behind a value comes to the same whether or not the name that was tested has the
value in it: the other branch behind a value that fails, and the binder with its branch behind one
that passes the test of a temporary. -/
def BranchesAgree (head : Head) (binder : Binder β) (symbol : String) (success : Form ω β)
    (failure : Option (Form ω β)) (env : Env ν) (value : ν) (state : σ) : Prop :=
  if S.passes head value then
    match binder with
    | .name _ => True
    | .other binder =>
      ((S.destructure binder value (env.bind symbol value) state).bind fun inner =>
        S.evaluate success inner.1 inner.2) =
      (S.destructure binder value env state).bind fun inner => S.evaluate success inner.1 inner.2
  else S.failed failure (env.bind symbol value) state = S.failed failure env state

variable {S} {env : Env ν} {success : Form ω β}

@[simp] theorem bind_self (env : Env ν) (symbol : String) (value : ν) :
    env.bind symbol value symbol = some value := by simp [Env.bind]

theorem evaluate_name {symbol : String} {v : ν} (h : env symbol = some v) (s : σ) :
    S.evaluate (.name symbol) env s = some (v, s) := by
  simp [evaluate, h]

/-- The test reads the value's own verdict. -/
theorem evaluate_successTest {h' : Head} {symbol : String} {env : Env ν}
    (h : CoreVisible h' symbol env) (value : ν) (s : σ) :
    ∃ v, S.evaluate (successTest h' symbol) (env.bind symbol value) s =
      some (v, s) ∧ S.truthy v = S.passes h' value := by
  have hn : S.evaluate (.name symbol) (env.bind symbol value) s = some (value, s) :=
    evaluate_name (bind_self env symbol value) s
  have hsome (hh : h' = .ifSome ∨ h' = .whenSome) :
      S.evaluate (.call "not" (.call "nil?" (.name symbol))) (env.bind symbol value) s =
        some (S.ofBool (!S.isNil value), s) := by
    have hnot := h hh "not" (by simp)
    have hnil := h hh "nil?" (by simp)
    rw [evaluate, evaluate, hn]
    simp [Env.bind, hnot, hnil, S.core_nil, S.core_not, S.truthy_ofBool]
  cases h' with
  | ifLet | whenLet => exact ⟨value, hn, rfl⟩
  | ifSome => exact ⟨_, hsome (Or.inl rfl), S.truthy_ofBool _⟩
  | whenSome => exact ⟨_, hsome (Or.inr rfl), S.truthy_ofBool _⟩

theorem evaluate_conditional {t : Form ω β} (f : Option (Form ω β)) {state : σ}
    {v : ν} (h : S.evaluate t env state = some (v, state)) :
    S.evaluate (conditional t success f) env state =
      if S.truthy v then S.evaluate success env state else S.failed f env state := by
  cases f with
  | some f | none => simp [conditional, evaluate, h, failed]

end Semantics

/-! ### A shadowed name in the other branch -/

/-- Constants, `nil` and the truth values: no expression reads or changes anything. -/
def constants : Semantics (Option Bool) Empty (Option Bool) Unit where
  nil := none
  ofBool := some
  truthy value := value == some true
  isNil value := value.isNone
  global _ _ := none
  apply _ _ _ := none
  core function value _ :=
    if function = "not" then some (some !(value == some true), ())
    else if function = "nil?" then some (some value.isNone, ()) else none
  other form _ _ := some (form, ())
  destructure binder := binder.elim
  truthy_ofBool b := by cases b <;> rfl
  core_not _ _ := rfl
  core_nil _ _ := rfl

end Beagle.BindingConds
