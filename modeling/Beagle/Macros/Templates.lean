/-
Quasiquoted templates.

Everything in a template stands for itself but what is unquoted, which the evaluator is asked for. A
tail `(a . ~b)` reaches the loop as the two items `unquote` and `b`.
-/
import Beagle.Macros.Datum

namespace Beagle.Macros

variable {ε ℓ κ : Type}

inductive QuasiquoteError (ε : Type) where
  | evaluation (error : ε)
  /-- "unquote-splicing (`~@`) has no surrounding list to splice into" -/
  | nothingToSpliceInto
  /-- `cadr` of something shorter. -/
  | noForm

/-- What the evaluator makes of an unquoted form in the environment at hand: a value that may stand
in generated syntax, and the items of one. -/
structure Evaluation (ε ℓ κ : Type) where
  value (form : Datum ℓ κ) : Except ε (Datum ℓ κ)
  items (form : Datum ℓ κ) : Except ε (List (Datum ℓ κ))

def Datum.cadr : Datum ℓ κ → Except (QuasiquoteError ε) (Datum ℓ κ)
  | .pair _ (.pair form _) => .ok form
  | _ => .error .noForm

def Datum.append (items : List (Datum ℓ κ)) (rest : Datum ℓ κ) : Datum ℓ κ :=
  items.foldr .pair rest

def Datum.headedBy (name : String) : Datum ℓ κ → Bool
  | .pair first _ => first.isSymbol name
  | _ => false

def Evaluation.unquoted (evaluation : Evaluation ε ℓ κ) (template : Datum ℓ κ) :
    Except (QuasiquoteError ε) (Datum ℓ κ) := do
  let form ← template.cadr
  (evaluation.value form).mapError .evaluation

/-- The loop at its first item, when `element` stands for the item and `others` for the loop behind
it. -/
def quasiquoteItem (evaluation : Evaluation ε ℓ κ) (depth : Nat) (item rest : Datum ℓ κ)
    (element others : Except (QuasiquoteError ε) (Datum ℓ κ)) :
    Except (QuasiquoteError ε) (Datum ℓ κ) :=
  if item.headedBy "unquote-splicing" && depth == 1 then do
    let form ← item.cadr
    let spliced ← (evaluation.items form).mapError .evaluation
    return .append spliced (← others)
  else if item.isSymbol "unquote" && depth == 1 then evaluation.unquoted (.pair item rest)
  else do return .pair (← element) (← others)

mutual

def evalQuasiquote (evaluation : Evaluation ε ℓ κ) (depth : Nat) :
    Datum ℓ κ → Except (QuasiquoteError ε) (Datum ℓ κ)
  | .pair first rest =>
    if first.isSymbol "quasiquote" then
      match rest with
      | .pair form _ => do
        return .prefixed "quasiquote" (← evalQuasiquote evaluation (depth + 1) form)
      | _ => .error .noForm
    else if first.isSymbol "unquote" then
      if depth = 1 then evaluation.unquoted (.pair first rest)
      else match rest with
        | .pair form _ => do
          return .prefixed "unquote" (← evalQuasiquote evaluation (depth - 1) form)
        | _ => .error .noForm
    else if first.isSymbol "unquote-splicing" then
      if depth = 1 then .error .nothingToSpliceInto
      else match rest with
        | .pair form _ => do
          return .prefixed "unquote-splicing" (← evalQuasiquote evaluation (depth - 1) form)
        | _ => .error .noForm
    else
      quasiquoteItem evaluation depth first rest (evalQuasiquote evaluation depth first)
        (quasiquoteItems evaluation depth rest)
  | template => .ok template

/-- The loop over what is left of a list. A tail that is no pair stands for itself. -/
def quasiquoteItems (evaluation : Evaluation ε ℓ κ) (depth : Nat) :
    Datum ℓ κ → Except (QuasiquoteError ε) (Datum ℓ κ)
  | .pair item rest =>
    quasiquoteItem evaluation depth item rest (evalQuasiquote evaluation depth item)
      (quasiquoteItems evaluation depth rest)
  | items => .ok items

end

/-! ### Templates without unquotes -/

namespace Datum

/-- No pair of the tree is headed by an unquote. -/
def unquoteFree : Datum ℓ κ → Bool
  | pair first rest => !first.isSymbol "unquote" && !first.isSymbol "unquote-splicing" &&
    first.unquoteFree && rest.unquoteFree
  | _ => true

mutual

/-- Every list headed by `quasiquote` has one form behind it. -/
def quasiquotesUnary : Datum ℓ κ → Bool
  | pair first rest =>
    if first.isSymbol "quasiquote" then
      match rest with
      | pair form null => form.quasiquotesUnary
      | _ => false
    else first.quasiquotesUnary && rest.itemsUnary
  | _ => true

def itemsUnary : Datum ℓ κ → Bool
  | pair item rest => item.quasiquotesUnary && rest.itemsUnary
  | _ => true

end

theorem unquoteFree_pair {first r : Datum ℓ κ} (h : (pair first r).unquoteFree = true) :
    first.isSymbol "unquote" = false ∧ first.isSymbol "unquote-splicing" = false ∧
      first.unquoteFree = true ∧ r.unquoteFree = true := by
  simpa [unquoteFree, and_assoc] using h

theorem headedBy_of_unquoteFree {i : Datum ℓ κ} (h : i.unquoteFree = true) :
    i.headedBy "unquote-splicing" = false := by
  cases i with
  | pair first r => exact (unquoteFree_pair h).2.1
  | _ => rfl

end Datum

theorem quasiquoteItem_eq_ok {ev : Evaluation ε ℓ κ} {d : Nat}
    {i rest : Datum ℓ κ} {e os : Except (QuasiquoteError ε) (Datum ℓ κ)}
    (hi : i.isSymbol "unquote" = false) (hf : i.unquoteFree = true) :
    quasiquoteItem ev d i rest e os = .ok (.pair i rest) ↔ e = .ok i ∧ os = .ok rest := by
  unfold quasiquoteItem
  rw [Datum.headedBy_of_unquoteFree hf, hi]
  cases e with
  | error => simp [bind, Except.bind]
  | ok e =>
    cases os with
    | error => simp [bind, Except.bind]
    | ok os => simp [bind, Except.bind, pure, Except.pure]

mutual

/-- **A template without unquotes is its own value where its quasiquotes hold one form each.** -/
theorem evalQuasiquote_eq_self (ev : Evaluation ε ℓ κ) (d : Nat)
    (t : Datum ℓ κ) (h : t.unquoteFree = true) :
    evalQuasiquote ev d t = .ok t ↔ t.quasiquotesUnary = true := by
  cases t with
  | pair first r =>
    obtain ⟨hunq, hs, hfst, hr⟩ := Datum.unquoteFree_pair h
    by_cases hq : first.isSymbol "quasiquote" = true
    · obtain rfl := Datum.eq_of_isSymbol hq
      cases r with
      | pair f m =>
        have hf := evalQuasiquote_eq_self ev (d + 1) f (Datum.unquoteFree_pair hr).2.2.1
        rw [evalQuasiquote, if_pos hq]
        cases m with
        | null =>
          rw [Datum.quasiquotesUnary, if_pos hq, ← hf]
          cases evalQuasiquote ev (d + 1) f with
          | error => simp [bind, Except.bind]
          | ok v => simp [bind, Except.bind, pure, Except.pure, Datum.prefixed]
        | _ =>
          cases evalQuasiquote ev (d + 1) f with
          | error => simp [bind, Except.bind, Datum.quasiquotesUnary]
          | ok v =>
            simp [bind, Except.bind, pure, Except.pure, Datum.prefixed, Datum.quasiquotesUnary]
      | _ => simp [evalQuasiquote, Datum.quasiquotesUnary]
    · unfold evalQuasiquote Datum.quasiquotesUnary
      rw [if_neg hq, hunq, hs, if_neg hq, Bool.and_eq_true]
      simp only [Bool.false_eq_true, if_false]
      rw [quasiquoteItem_eq_ok hunq hfst, evalQuasiquote_eq_self ev d first hfst,
        quasiquoteItems_eq_self ev d r hr]
  | _ => simp [evalQuasiquote, Datum.quasiquotesUnary]

theorem quasiquoteItems_eq_self (ev : Evaluation ε ℓ κ) (d : Nat)
    (its : Datum ℓ κ) (h : its.unquoteFree = true) :
    quasiquoteItems ev d its = .ok its ↔ its.itemsUnary = true := by
  cases its with
  | pair i r =>
    obtain ⟨hunq, -, hi, hr⟩ := Datum.unquoteFree_pair h
    rw [quasiquoteItems, Datum.itemsUnary, Bool.and_eq_true, quasiquoteItem_eq_ok hunq hi,
      evalQuasiquote_eq_self ev d i hi,
      quasiquoteItems_eq_self ev d r hr]
  | _ => simp [quasiquoteItems, Datum.itemsUnary]

end

end Beagle.Macros
