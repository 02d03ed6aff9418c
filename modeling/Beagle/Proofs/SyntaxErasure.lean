/-
What is injected is erased again.

A datum may hold syntax values, which injection takes as they are. Erasure reaches all of them but
those under a quote, whose datum is kept as it was written.
-/
import Beagle.Macros.Templates

namespace Beagle.Macros

variable {ε ℓ κ : Type}

namespace Datum

/-! ### Trees and what they hold -/

/-- Symbols, literals, syntax values and proper lists of these. -/
def tree : Datum ℓ κ → Bool
  | pair first rest => first.tree && rest.tree && rest.isList
  | _ => true

/-- No syntax value is left. -/
def plain : Datum ℓ κ → Bool
  | pair first rest => first.plain && rest.plain
  | embedded _ => false
  | _ => true

/-- The tree with the datum of every syntax value in its place. -/
def stripped : Datum ℓ κ → Datum ℓ κ
  | pair first rest => pair first.stripped rest.stripped
  | embedded value => syntaxToDatum value
  | datum => datum

/-- A list of one item. -/
def isSingle : Datum ℓ κ → Bool
  | pair _ null => true
  | _ => false

theorem stripped_of_plain {datum : Datum ℓ κ} (h : datum.plain = true) : datum.stripped = datum := by
  induction datum using Datum.rec (motive_2 := fun _ => True) (motive_3 := fun _ => True) with
  | pair first rest ihfirst ihrest =>
    rw [plain, Bool.and_eq_true] at h
    rw [stripped, ihfirst h.1, ihrest h.2]
  | embedded value => simp [plain] at h
  | null | symbol | literal => rfl
  | _ => trivial

end Datum

mutual

/-- No quote holds a syntax value. -/
def Datum.quotesPlain : Datum ℓ κ → Bool
  | .pair first rest =>
    if first.isSymbol "quote" && rest.isSingle then rest.plain
    else first.quotesPlain && rest.itemsPlain
  | .embedded value => value.quotesPlain
  | _ => true

def Datum.itemsPlain : Datum ℓ κ → Bool
  | .pair item rest => item.quotesPlain && rest.itemsPlain
  | _ => true

def BeagleSyntax.quotesPlain : BeagleSyntax ℓ κ → Bool
  | .atom datum _ => datum.plain
  | .ident _ _ => true
  | .list children _ => childrenPlain children
  | .vector children _ => childrenPlain children
  | .quote datum _ => datum.plain
  | .unquote child _ _ => child.quotesPlain

def childrenPlain : List (BeagleSyntax ℓ κ) → Bool
  | [] => true
  | child :: children => child.quotesPlain && childrenPlain children

end

mutual

/-- **The datum of a syntax value is free of syntax values where its quotes are.** -/
theorem plain_syntaxToDatum (v : BeagleSyntax ℓ κ) : (syntaxToDatum v).plain = v.quotesPlain := by
  cases v with
  | atom d | ident n => rfl
  | list cs => exact plain_childrenToDatum cs
  | vector cs => simp [syntaxToDatum, Datum.plain, BeagleSyntax.quotesPlain,
      plain_childrenToDatum cs]
  | quote d => simp [syntaxToDatum, Datum.prefixed, Datum.plain, BeagleSyntax.quotesPlain]
  | unquote c => simp [syntaxToDatum, Datum.prefixed, Datum.plain, BeagleSyntax.quotesPlain,
      plain_syntaxToDatum c]

theorem plain_childrenToDatum (children : List (BeagleSyntax ℓ κ)) :
    (childrenToDatum children).plain = childrenPlain children := by
  cases children with
  | nil => rfl
  | cons c children =>
    rw [childrenToDatum, Datum.plain, childrenPlain, plain_syntaxToDatum c,
      plain_childrenToDatum children]

end

/-! ### Injection -/

/-- The syntax value that a datum is injected as holds what the datum holds. -/
def Injects (datum : Datum ℓ κ) (value : BeagleSyntax ℓ κ) : Prop :=
  value.quotesPlain = datum.quotesPlain ∧
    (datum.quotesPlain = true → syntaxToDatum value = datum.stripped)

variable {first r : Datum ℓ κ}

theorem datumToSyntax_pair (ctx : κ) (h : r.isSingle = false) :
    datumToSyntax ctx (.pair first r) = sequenceToSyntax ctx first r
      (datumToSyntax ctx first) (datumChildren ctx r) := by
  conv_lhs => unfold datumToSyntax
  split
  · simp [Datum.isSingle] at h
  · rfl

theorem sequenceToSyntax_injects (ctx : κ)
    {c : BeagleSyntax ℓ κ} {cs : List (BeagleSyntax ℓ κ)} (hl : r.isList = true)
    (hq : (Datum.pair first r).quotesPlain = (first.quotesPlain && r.itemsPlain))
    (hfst : Injects first c) (hpl : childrenPlain cs = r.itemsPlain)
    (hr : r.itemsPlain = true → childrenToDatum cs = r.stripped) :
    ∃ value, sequenceToSyntax ctx first r (some c) (some cs) = some value ∧
      Injects (.pair first r) value := by
  unfold sequenceToSyntax
  by_cases hb : first.isSymbol bracketTag = true
  · obtain rfl := Datum.eq_of_isSymbol hb
    refine ⟨.vector cs ctx, by simp, ?_, fun h => ?_⟩
    · rw [hq]
      simp [BeagleSyntax.quotesPlain, hpl, Datum.quotesPlain]
    · rw [hq, Bool.and_eq_true] at h
      rw [syntaxToDatum, hr h.2]
      rfl
  · refine ⟨.list (c :: cs) ctx, by simp [hb, hl], ?_, fun h => ?_⟩
    · rw [hq, BeagleSyntax.quotesPlain, childrenPlain, hfst.1, hpl]
    · rw [hq, Bool.and_eq_true] at h
      rw [syntaxToDatum, childrenToDatum, hfst.2 h.1, hr h.2, Datum.stripped]

mutual

theorem datumToSyntax_injects (ctx : κ) (d : Datum ℓ κ) (h : d.tree = true) :
    ∃ value, datumToSyntax ctx d = some value ∧ Injects d value := by
  cases d with
  | null | literal value | embedded value => exact ⟨_, rfl, rfl, fun _ => rfl⟩
  | symbol sp =>
    refine ⟨_, rfl, ?_, fun _ => ?_⟩ <;> split <;>
      simp [BeagleSyntax.quotesPlain, Datum.quotesPlain, Datum.plain, syntaxToDatum, Datum.stripped]
  | pair first r =>
    simp only [Datum.tree, Bool.and_eq_true] at h
    obtain ⟨⟨hfst, ht⟩, hl⟩ := h
    obtain ⟨c, hc, hi⟩ := datumToSyntax_injects ctx first hfst
    obtain ⟨cs, hchs, hpl, hr⟩ := datumChildren_injects ctx r ht hl
    by_cases hsgl : r.isSingle = true
    case neg =>
      rw [datumToSyntax_pair ctx (by simpa using hsgl), hc, hchs]
      exact sequenceToSyntax_injects ctx hl (by simp [Datum.quotesPlain, hsgl]) hi hpl hr
    cases r with
    | pair d m =>
      cases m with
      | null =>
        rw [datumToSyntax, hc, hchs]
        by_cases hqu : first.isSymbol "quote" = true
        · -- the quote keeps what it holds
          obtain rfl := Datum.eq_of_isSymbol hqu
          refine ⟨.quote d ctx, by simp, by simp [BeagleSyntax.quotesPlain,
            Datum.quotesPlain, Datum.plain, hsgl], fun hq => ?_⟩
          have hd : d.plain = true := by
            simpa [Datum.quotesPlain, Datum.plain, hsgl] using hq
          simp [syntaxToDatum, Datum.prefixed, Datum.stripped, Datum.stripped_of_plain hd]
        have hquo : (Datum.pair first (.pair d .null)).quotesPlain =
            (first.quotesPlain && (Datum.pair d .null).itemsPlain) := by
          simp [Datum.quotesPlain, hqu]
        by_cases hunq : (first.isSymbol "unquote" || first.isSymbol "unquote-splicing") = true
        · obtain ⟨value, hval, hs, he⟩ := datumToSyntax_injects ctx d
            (by simp only [Datum.tree, Bool.and_eq_true] at ht; exact ht.1.1)
          refine ⟨.unquote value (first.isSymbol "unquote-splicing") ctx,
            by simp [hqu, hunq, hval], ?_, fun hq => ?_⟩
          · rw [hquo, BeagleSyntax.quotesPlain, hs]
            rcases Bool.or_eq_true _ _ ▸ hunq with hname | hname <;>
              simp [Datum.eq_of_isSymbol hname, Datum.quotesPlain, Datum.itemsPlain]
          · rw [hquo, Bool.and_eq_true] at hq
            have hd : d.quotesPlain = true := by simpa [Datum.itemsPlain] using hq.2
            rcases Bool.or_eq_true _ _ ▸ hunq with hname | hname <;>
              simp [Datum.eq_of_isSymbol hname, syntaxToDatum, Datum.prefixed, Datum.stripped,
                he hd]
        · simp only [hqu, hunq]
          exact sequenceToSyntax_injects ctx hl hquo hi hpl hr
      | _ => simp [Datum.isSingle] at hsgl
    | _ => simp [Datum.isSingle] at hsgl

theorem datumChildren_injects (ctx : κ) (its : Datum ℓ κ) (h : its.tree = true)
    (hl : its.isList = true) :
    ∃ cs, datumChildren ctx its = some cs ∧ childrenPlain cs = its.itemsPlain ∧
      (its.itemsPlain = true → childrenToDatum cs = its.stripped) := by
  cases its with
  | null => exact ⟨[], rfl, rfl, fun _ => rfl⟩
  | pair first r =>
    simp only [Datum.tree, Bool.and_eq_true] at h
    obtain ⟨c, hc, hs, he⟩ := datumToSyntax_injects ctx first h.1.1
    obtain ⟨cs, hchs, hpl, hr⟩ := datumChildren_injects ctx r h.1.2 h.2
    refine ⟨c :: cs, by simp [datumChildren, hc, hchs], ?_, fun hq => ?_⟩
    · rw [childrenPlain, Datum.itemsPlain, hs, hpl]
    · rw [Datum.itemsPlain, Bool.and_eq_true] at hq
      rw [childrenToDatum, Datum.stripped, he hq.1, hr hq.2]
  | _ => simp [Datum.isList] at hl

end

/-- **Injection and erasure are inverse where no quote holds a syntax value, and a template without
unquotes is its own value where its quasiquotes hold one form each.** -/
theorem erased_iff_quotesPlain : (∀ (context : κ) (datum : Datum ℓ κ), datum.tree = true →
      ∃ value, datumToSyntax context datum = some value ∧
        (syntaxToDatum value = datum.stripped ∧ (syntaxToDatum value).plain = true ↔
          datum.quotesPlain = true)) ∧
    ∀ (evaluation : Evaluation ε ℓ κ) (depth : Nat) (template : Datum ℓ κ),
      template.unquoteFree = true → (evalQuasiquote evaluation depth template = .ok template ↔
          template.quasiquotesUnary = true) := by
  refine ⟨fun context datum h => ?_, evalQuasiquote_eq_self⟩
  obtain ⟨value, hval, hs, he⟩ := datumToSyntax_injects context datum h
  refine ⟨value, hval, ?_⟩
  rw [plain_syntaxToDatum, hs]
  exact ⟨And.right, fun hpl => ⟨he hpl, hpl⟩⟩

/-- The tree `(quote x)` around an antiquoted `x`. -/
def quotedArgument : Datum Unit Unit := .prefixed "quote" (.embedded (.ident ⟨none, "x"⟩ ()))

/-- The template `(quasiquote a b)`. -/
def doubleQuasiquote : Datum Unit Unit :=
  .pair (.symbol "quasiquote") (.pair (.symbol "a") (.pair (.symbol "b") .null))

/-- The syntax value under the quote is left, and the second form of the template is lost. -/
theorem quotedArgument_survives :
    (∃ value, quotedArgument.tree = true ∧ datumToSyntax () quotedArgument = some value ∧
      syntaxToDatum value ≠ quotedArgument.stripped ∧ (syntaxToDatum value).plain = false) ∧
    ∀ evaluation : Evaluation Unit Unit Unit, doubleQuasiquote.unquoteFree = true ∧
      evalQuasiquote evaluation 1 doubleQuasiquote ≠ .ok doubleQuasiquote := by
  refine ⟨⟨_, rfl, rfl, nofun, rfl⟩, fun evaluation => ⟨rfl, ?_⟩⟩
  simp [evalQuasiquote, doubleQuasiquote, Datum.prefixed, bind, Except.bind, pure, Except.pure]

theorem quote_of_symbol_erased :
    ((Datum.prefixed "quote" (.symbol "x") : Datum Unit Unit).quotesPlain = true ∧
      (.prefixed "quasiquote" (.symbol "a") : Datum Unit Unit).quasiquotesUnary = true) ∧
    (∃ value, datumToSyntax () (.prefixed "quote" (.symbol "x") : Datum Unit Unit) = some value ∧
      syntaxToDatum value = .prefixed "quote" (.symbol "x")) ∧
    ∀ evaluation : Evaluation Unit Unit Unit,
      evalQuasiquote evaluation 1 (.prefixed "quasiquote" (.symbol "a")) =
        .ok (.prefixed "quasiquote" (.symbol "a")) := by
  refine ⟨⟨rfl, rfl⟩, ?_, fun evaluation => ?_⟩
  · obtain ⟨value, hval, he⟩ :=
      (@erased_iff_quotesPlain Unit Unit Unit).1 () (.prefixed "quote" (.symbol "x")) rfl
    exact ⟨value, hval, (he.mpr rfl).1⟩
  · exact ((@erased_iff_quotesPlain Unit Unit Unit).2 evaluation 1
      (.prefixed "quasiquote" (.symbol "a")) rfl).mpr rfl

end Beagle.Macros
