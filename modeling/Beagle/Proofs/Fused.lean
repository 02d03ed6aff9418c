/-
Replaying a payload as it is read is decoding it and then replaying it.

`Follows` relates a decoder that builds the store to one that builds nothing: where
the second fails the first reports an error, and where the second gives a value
the first consumes the same bytes and leaves the store and the value that a
relation allows.  The two walks of a Term, of an operation list and of a record
follow each other, so a fused replay accepts exactly the payloads that decode to a
record the ledger accepts.
-/
import Beagle.Proofs.Refinement
import Beagle.Store.LogCodec

namespace Beagle.Store

open Beagle.Lib Beagle.Lib.Reader

section

variable {H : Hashing} {α β γ δ : Type}

/-- `p`, started on a store, does what `q` does and builds what `R` says. -/
def Follows (root : Root) (p : Decode Root α) (q : Decode Unit β) (R : β → Root → α → Prop) :
    Prop :=
  ∀ rest n, match q ⟨rest, ⟨n, ()⟩⟩ with
    | .error _ => ∃ message, p ⟨rest, ⟨n, root⟩⟩ = .error (.error message)
    | .ok (b, out) => ∃ root' a,
        p ⟨rest, ⟨n, root⟩⟩ = .ok (a, ⟨out.rest, ⟨out.state.nodes, root'⟩⟩) ∧ R b root' a

namespace Follows

variable {root : Root} {R : β → Root → α → Prop}

theorem bind {p : Decode Root α} {q : Decode Unit β} {f : α → Decode Root γ} {g : β → Decode Unit δ}
    {S : δ → Root → γ → Prop} (h : Follows root p q R)
    (h' : ∀ b root' a, R b root' a → Follows root' (f a) (g b) S) :
    Follows root (p >>= f) (q >>= g) S := by
  intro r n
  have hp := h r n
  rw [run_bind, run_bind]
  cases hq : q ⟨r, ⟨n, ()⟩⟩ with
  | error e =>
    rw [hq] at hp
    obtain ⟨m, hm⟩ := hp
    rw [hm]
    exact ⟨m, rfl⟩
  | ok out =>
    rw [hq] at hp
    obtain ⟨root', a, ha, hR⟩ := hp
    rw [ha]
    exact h' _ _ _ hR out.2.rest out.2.state.nodes

theorem pure {a : α} {b : β} {R : β → Root → α → Prop} (h : R b root a) :
    Follows root (pure a) (pure b) R := fun _ _ => ⟨root, a, rfl, h⟩

theorem fails (m m' : String) :
    Follows root (decoderError m) (decoderError m') R := fun _ _ => ⟨m, rfl⟩

theorem ite {c : Prop} [Decidable c] {p p' : Decode Root α} {q q' : Decode Unit β}
    {R : β → Root → α → Prop} (h : Follows root p q R) (h' : Follows root p' q' R) :
    Follows root (if c then p else p') (if c then q else q') R := by
  by_cases hc : c
  · rw [if_pos hc, if_pos hc]; exact h
  · rw [if_neg hc, if_neg hc]; exact h'

end Follows

/-! ### What looks at the bytes only -/

/-- The store is left alone and the values are the same. -/
def Untouched (root : Root) (b : β) (root' : Root) (a : β) : Prop := root' = root ∧ a = b

theorem follows_readBytes (root : Root) (amount : Nat) (context : String) :
    Follows root (readBytes amount context) (readBytes amount context) (Untouched root) := by
  intro rest n
  unfold readBytes takeN
  by_cases h : rest.length < amount
  · simp only [if_pos h]
    exact ⟨_, rfl⟩
  · simp only [if_neg h]
    exact ⟨root, _, rfl, rfl, rfl⟩

variable {p : Decode Root α} {root' : Root} {t : Term} {h : Int}

theorem follows_map {root : Root} {q : Decode Unit α} (h : Follows root p q (Untouched root))
    (f : α → γ) :
    Follows root (do let a ← p; pure (f a)) (do let a ← q; pure (f a)) (Untouched root) := by
  refine h.bind ?_
  rintro b root' a ⟨rfl, rfl⟩
  exact Follows.pure ⟨rfl, rfl⟩

theorem follows_readLe (root : Root) (width : Nat) (context : String) :
    Follows root (readLe width context) (readLe width context) (Untouched root) :=
  follows_map (follows_readBytes root width context) leValue

theorem follows_readU8 (root : Root) (ctx : String) :
    Follows root (readU8 ctx) (readU8 ctx) (Untouched root) := follows_readLe _ _ _

theorem follows_readU32Le (root : Root) (ctx : String) :
    Follows root (readU32Le ctx) (readU32Le ctx) (Untouched root) := follows_readLe _ _ _

theorem follows_readI64Le (root : Root) (ctx : String) :
    Follows root (readI64Le ctx) (readI64Le ctx) (Untouched root) :=
  follows_map (follows_readLe root 8 ctx) _

theorem follows_readUtf8 (root : Root) (length : Nat) (label : String) :
    Follows root (readUtf8 length label) (readUtf8 length label) (Untouched root) := by
  refine (follows_readBytes root length label).bind ?_
  rintro b root' a ⟨rfl, rfl⟩
  cases Utf8.decode a with
  | some text => exact Follows.pure ⟨rfl, rfl⟩
  | none => exact Follows.fails _ _

theorem follows_readSizedText (root : Root) (m : Nat) (l : String) :
    Follows root (readSizedText m l) (readSizedText m l) (Untouched root) := by
  refine (follows_readU32Le root l).bind ?_
  rintro b root' a ⟨rfl, rfl⟩
  exact Follows.ite (Follows.fails _ _) (follows_readUtf8 _ _ _)

theorem decoderNode_run {ρ : Type} (mn : Nat) (r : List UInt8) (n : Nat) (root : ρ) :
    decoderNode mn ⟨r, ⟨n, root⟩⟩ = if n + 1 > mn then .error (.error termNodeCountError)
        else .ok ((), ⟨r, ⟨n + 1, root⟩⟩) := by
  show (if n + 1 > mn then decoderError termNodeCountError else pure () :
    Decode ρ Unit) ⟨r, ⟨n + 1, root⟩⟩ = _
  by_cases h : n + 1 > mn
  · rw [if_pos h, if_pos h]
    rfl
  · rw [if_neg h, if_neg h]
    rfl

theorem follows_decoderNode (root : Root) (mn : Nat) :
    Follows root (decoderNode mn) (decoderNode mn) (Untouched root) := by
  intro r n
  rw [decoderNode_run, decoderNode_run]
  by_cases h : n + 1 > mn
  · rw [if_pos h, if_pos h]
    exact ⟨_, rfl⟩
  · rw [if_neg h, if_neg h]
    exact ⟨root, (), rfl, rfl, rfl⟩

theorem follows_resetNodes (root : Root) :
    Follows root resetNodes resetNodes (Untouched root) := fun _ _ => ⟨root, (), rfl, rfl, rfl⟩

/-! ### Terms -/

/-- The store after a Term was interned, and its handle. -/
def InternedTo (H : Hashing) (root : Root) (t : Term) (root' : Root) (h : Int) : Prop :=
  internHandle H root t = (root', h)

theorem follows_internAtom (root : Root) (v : AtomValue) :
    Follows root (internAtomStep H v) (pure (.atom v) : Decode Unit Term)
      (InternedTo H root) := fun _ _ => ⟨_, _, rfl, rfl⟩

theorem InternedTo.indexed {root : Root} (hi : Indexed H root) (ht : InternedTo H root t root' h) :
    Indexed H root' ∧ Rows.Extends root.store.rows root'.store.rows ∧ root'.store.rows.Valid h := by
  obtain ⟨s, e⟩ := internHandle_spec hi t
  unfold InternedTo at ht
  rw [ht] at s e
  have e : h = (root.store.rows.intern t).2 := e
  refine ⟨s.indexed, ?_, ?_⟩
  · rw [s.rows_eq]
    exact Rows.intern_extends _ _
  · rw [s.rows_eq, e]
    exact Rows.intern_valid _ _

/-- The three components are interned before, so their handles resolve. -/
theorem internTripleHandle_valid {root : Root} {t1 t2 t3 : Int} (h1 : root.store.rows.Valid t1)
    (h2 : root.store.rows.Valid t2) (h3 : root.store.rows.Valid t3) :
    internTripleHandle H root t1 t2 t3 = .ok (internTripleRow H root ⟨t1, t2, t3⟩) := by
  unfold internTripleHandle
  rw [validHandle_iff.mpr h1, validHandle_iff.mpr h2, validHandle_iff.mpr h3]
  rfl

/-- **Interning a Term as it is read is reading it and then interning it.** -/
theorem follows_internWireTerm (ls : Nat) {root : Root} (h : Indexed H root) :
    Follows root (internWireTerm H ls) (readTermLimited maxCodecCount maxCodecCount ls)
      (InternedTo H root) := by
  induction ls generalizing root with
  | zero => exact Follows.fails _ _
  | succ ls ih =>
    refine (follows_decoderNode root maxCodecCount).bind ?_
    rintro - root' - ⟨rfl, -⟩
    refine (follows_readU8 root' "Term tag").bind ?_
    rintro tag root tag' ⟨rfl, rfl⟩
    split
    · refine (follows_readSizedText root _ _).bind ?_
      rintro tx root' t' ⟨rfl, rfl⟩
      exact follows_internAtom _ _
    · refine (follows_readI64Le root _).bind ?_
      rintro v root' v' ⟨rfl, rfl⟩
      exact follows_internAtom _ _
    · refine (follows_readI64Le root _).bind ?_
      rintro bs root' bs' ⟨rfl, rfl⟩
      exact follows_internAtom _ _
    · exact follows_internAtom _ _
    · exact follows_internAtom _ _
    · refine (follows_readSizedText root _ _).bind ?_
      rintro sp root' sp' ⟨rfl, rfl⟩
      exact Follows.ite (Follows.fails _ _) (follows_internAtom _ _)
    · refine (ih h).bind ?_
      intro t1 r1 h1 hr1
      obtain ⟨i1, e1, v1⟩ := hr1.indexed h
      refine (ih i1).bind ?_
      intro t2 r2 h2 hr2
      obtain ⟨i2, e2, v2⟩ := hr2.indexed i1
      refine (ih i2).bind ?_
      intro t3 r3 h3 hr3
      obtain ⟨i3, e3, v3⟩ := hr3.indexed i2
      intro r n
      have hok := internTripleHandle_valid (H := H) (v1.mono (e2.trans e3)) (v2.mono e3) v3
      refine ⟨(internTripleRow H r3 ⟨h1, h2, h3⟩).1, (internTripleRow H r3 ⟨h1, h2, h3⟩).2, ?_, ?_⟩
      · rw [internTripleStep, Reader.run_bind]
        dsimp only [getState, Except.bind]
        rw [hok]
        rfl
      · unfold InternedTo at hr1 hr2 hr3 ⊢
        simp only [internHandle, hr1, hr2, hr3]
    · refine (follows_readI64Le root _).bind ?_
      rintro ss root' ss' ⟨rfl, rfl⟩
      refine (follows_readU32Le root' _).bind ?_
      rintro ns root ns' ⟨rfl, rfl⟩
      by_cases hn : ns' < 1000000000
      · simp only [dif_pos hn]
        exact follows_internAtom _ _
      · simp only [dif_neg hn]
        exact Follows.fails _ _
    · first
        | exact Follows.fails _ _
        | split <;> first | exact Follows.fails _ _ | exact absurd rfl (by assumption)

/-! ### Operations and records -/

theorem follows_recordDecodeFailed {root : Root} {q : Decode Unit β} {R : β → Root → α → Prop}
    (h : Follows root p q R) : Follows root (recordDecodeFailed p) q R := by
  intro r n
  have hp := h r n
  unfold recordDecodeFailed
  cases hq : q ⟨r, ⟨n, ()⟩⟩ with
  | error e =>
    rw [hq] at hp
    obtain ⟨m, hm⟩ := hp
    rw [hm]
    exact ⟨_, rfl⟩
  | ok out =>
    rw [hq] at hp
    obtain ⟨root', a, ha, hR⟩ := hp
    rw [ha]
    exact ⟨root', a, rfl, hR⟩

/-- The store after the propositions of some operations were interned, and their acts. -/
def Columns (H : Hashing) (root : Root) (operations : List CommitOperation) (root' : Root)
    (acts : List (Action × Int)) : Prop :=
  ∃ handles, operationHandles H root operations = (root', handles) ∧
    acts = (operations.map CommitOperation.action).zip handles

/-- The front of an operation, before anything is checked. -/
def readOperation : Decode Unit (Nat × Nat × Term) := do
  let actual ← readU32Le "Store transaction log operation ordinal"
  let action ← readU8 "Store transaction log operation action"
  resetNodes
  let term ← readTermLimited maxCodecCount maxCodecCount (maxTermDepth + 1)
  pure (actual, action, term)

theorem decodeOperations_succ (n ord' : Nat) :
    (decodeOperations (n + 1) ord' : Decode Unit (List CommitOperation))
      = readOperation >>= fun (ac, a, tm) =>
          (match termAsTriple tm with
            | some tr => pure tr
            | none => decoderError
                "Store transaction log operation proposition is not a Triple") >>= fun tr =>
            if ac ≠ ord' then
              decoderError "Store transaction log operation ordinals are not contiguous"
            else if a = 1 then do
              let rest ← decodeOperations n (ord' + 1)
              pure (⟨.assert, tr⟩ :: rest)
            else if a = 2 then do
              let rest ← decodeOperations n (ord' + 1)
              pure (⟨.retract, tr⟩ :: rest)
            else decoderError "Store transaction log contains an unknown operation action" := by
  conv_lhs => rw [decodeOperations]
  simp only [readOperation, readStoreLogTerm, bind_assoc, pure_bind] <;> rfl

/-- The front of an operation and the Term interned as it is read. -/
theorem follows_readOperation {root : Root} (h : Indexed H root) : Follows root
      (recordDecodeFailed do
        let ac ← readU32Le "Store transaction log operation ordinal"
        let a ← readU8 "Store transaction log operation action"
        resetNodes
        let h' ← internWireTerm H (maxTermDepth + 1)
        pure (ac, a, h'))
      readOperation
      (fun fr root' fr' => fr'.1 = fr.1 ∧ fr'.2.1 = fr.2.1 ∧
        InternedTo H root fr.2.2 root' fr'.2.2) := by
  refine follows_recordDecodeFailed ?_
  refine (follows_readU32Le root _).bind ?_
  rintro ac root' ac' ⟨rfl, rfl⟩
  refine (follows_readU8 root' _).bind ?_
  rintro a root a' ⟨rfl, rfl⟩
  refine (follows_resetNodes root).bind ?_
  rintro - root' - ⟨rfl, -⟩
  refine (follows_internWireTerm _ h).bind ?_
  intro tm r'' h' ht
  exact Follows.pure ⟨rfl, rfl, ht⟩

/-- A Term is interned to a triple handle exactly when it is a Triple. -/
theorem tripleHandleShape_interned {root : Root} (hi : Indexed H root)
    (ht : InternedTo H root t root' h) : tripleHandleShape h = (termAsTriple t).isSome := by
  obtain ⟨-, e⟩ := internHandle_spec hi t
  unfold InternedTo at ht
  rw [ht] at e
  have e : h = (root.store.rows.intern t).2 := e
  cases t with
  | atom v =>
    have ha : ∃ p, (root.store.rows.intern (.atom v)).2 = atomHandle p := by
      simp only [Rows.intern, Rows.internAtom]
      split
      · exact ⟨_, rfl⟩
      · exact ⟨_, rfl⟩
    obtain ⟨p, hp⟩ := ha
    rw [e, hp, tripleHandleShape_atomHandle]
    rfl
  | triple t1 t2 t3 =>
    obtain ⟨p, hp, -⟩ := Rows.intern_triple_handle root.store.rows t1 t2 t3
    rw [e, hp, tripleHandleShape_tripleHandle]
    rfl

/-- The act an operation becomes, in front of the acts of the rest. -/
theorem Columns.cons {root root' r'' : Root} (op : CommitOperation) {h : Int}
    {r : List CommitOperation} {a : List (Action × Int)}
    (ht : InternedTo H root op.proposition.term root' h)
    (hr : Columns H root' r r'' a) :
    Columns H root (op :: r) r'' ((op.action, h) :: a) := by
  obtain ⟨hs', hh, rfl⟩ := hr
  refine ⟨h :: hs', ?_, rfl⟩
  unfold InternedTo at ht
  simp only [operationHandles, ht, hh]

/-- **Replaying operations as they are read is decoding them and interning their
    propositions.** -/
theorem follows_replayOperations (n ord' : Nat) {root : Root} (h : Indexed H root) :
    Follows root (replayOperations H n ord') (decodeOperations n ord') (Columns H root) := by
  induction n generalizing ord' root with
  | zero => exact Follows.pure ⟨[], rfl, rfl⟩
  | succ n ih =>
    rw [decodeOperations_succ, replayOperations]
    refine (follows_readOperation h).bind ?_
    rintro ⟨act, a, tm⟩ root' ⟨a', ac', h'⟩ ⟨ha, ha', ht⟩
    dsimp only at ha ha' ht ⊢
    subst ha ha'
    have hs := tripleHandleShape_interned h ht
    have hi := (ht.indexed h).1
    cases tm with
    | atom v =>
      -- Decoding stops at once; the replay has the ordinal to look at first.
      intro r m
      by_cases hact : a' ≠ ord'
      · exact ⟨_, by rw [if_pos hact]; rfl⟩
      · rw [if_neg hact, hs]
        exact ⟨_, rfl⟩
    | triple t1 t2 t3 =>
      rw [hs]
      simp only [termAsTriple, pure_bind, Option.isSome_some, Bool.not_true,
        Bool.false_eq_true, if_false]
      refine Follows.ite (Follows.fails _ _) ?_
      refine Follows.ite ?_ (Follows.ite ?_ (Follows.fails _ _))
      · refine (ih (ord' + 1) hi).bind ?_
        intro ops r'' ac hc
        exact Follows.pure (Columns.cons ⟨.assert, ⟨t1, t2, t3⟩⟩ ht hc)
      · refine (ih (ord' + 1) hi).bind ?_
        intro ops r'' ac hc
        exact Follows.pure (Columns.cons ⟨.retract, ⟨t1, t2, t3⟩⟩ ht hc)

/-- **Replaying a payload as it is read is decoding it and interning its propositions.** -/
theorem follows_replayRecord {root : Root} (h : Indexed H root) :
    Follows root (replayRecord H) readRecord (fun rc root' r =>
      r.1 = rc.sequence ∧ Columns H root rc.operations root' r.2) := by
  have hfr : Follows root readTransactionPayload readTransactionPayload (Untouched root) := by
    refine (follows_readI64Le root _).bind ?_
    rintro sq root' sq' ⟨rfl, rfl⟩
    exact follows_map (follows_readU32Le root' _) fun c => (sq', c)
  refine hfr.bind ?_
  rintro ⟨sq, oc⟩ root' - ⟨rfl, rfl⟩
  refine Follows.ite (Follows.fails _ _) (Follows.ite (Follows.fails _ _) ?_)
  refine (follows_replayOperations oc 0 h).bind ?_
  intro ops r'' a hc
  exact Follows.pure ⟨rfl, hc⟩

end

end Beagle.Store
