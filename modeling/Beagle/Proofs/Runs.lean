/-
Runs of a store.

A run calls a store from the outside: it commits, replays, opens and closes the
fold, and loads dumps.  A call that fails leaves the store as it was, or ends the boot
it belongs to, so a run is of calls that succeed.  Every store a run reaches holds a
settled ledger, as long as no dump that is loaded repeats a row.
-/
import Beagle.Proofs.Committing
import Beagle.Proofs.Withdrawals

namespace Beagle.Store

open Beagle.Lib List

inductive StoreCall where
  | commit (operations : List CommitOperation) (metadata : CommitMetadata)
  | replay (record : TransactionRecord)
  | replayResult (record : TransactionRecord)
  | replayFused (payload : List UInt8)
  | openFold
  | closeFold
  | load (dump : TermStoreDump)

section

variable (H : Hashing)

/-- The root after a call, if the call succeeds. -/
def StoreCall.run (root : Root) : StoreCall → Option Root
  | .commit operations metadata =>
    (commitBoundary H root operations metadata).toOption.map Prod.fst
  | .replay record => (replayTransaction H root record).toOption.map Prod.fst
  | .replayResult record =>
    (replayTransactionResult H root record).toOption.bind Except.toOption
  | .replayFused payload => (replayRecordFused H root payload).toOption.bind Except.toOption
  | .openFold => some (Store.openFold root)
  | .closeFold => some (Store.closeFold root)
  | .load dump => (loadTermStoreResult H root dump).toOption

def StoreCall.runAll (root : Root) : List StoreCall → Option Root
  | [] => some root
  | call :: rest => (call.run H root).bind fun root' => runAll root' rest

/-- The store that some calls make of a fresh one. -/
def reachedStore (spaceId : String) (calls : List StoreCall) : Option Root :=
  (newTermStore spaceId).toOption.bind fun root => StoreCall.runAll H root calls

end

/-- No row of a dump that the call loads equals a later one. -/
def StoreCall.LoadsDistinct : StoreCall → Prop
  | .load dump => Rows.Distinct ⟨dump.atoms, dump.triples⟩
  | _ => True

variable {H : Hashing}

theorem toOption_eq_some {ε α : Type} {res : Except ε α} {a : α}
    (h : res.toOption = some a) : res = .ok a := by
  cases res with
  | error e => cases h
  | ok b =>
    cases h
    rfl

/-- A store that holds a settled ledger. -/
def HoldsSettled (H : Hashing) (root : Root) : Prop := ∃ l : Ledger, Holds H root l ∧ l.Settled

/-- Does the call put another history in the place of the store's? -/
def StoreCall.isLoad : StoreCall → Bool
  | .load _ => true
  | _ => false

/-- One ledger goes on where another ended. -/
structure Ledger.Continues (l l' : Ledger) : Prop where
  spaceId : l'.spaceId = l.spaceId
  rows : Rows.Extends l.rows l'.rows
  history : ∃ since, l'.history = l.history ++ since ∧ ∀ t ∈ since, l.nextSequence ≤ t.sequence

theorem Ledger.Continues.refl (l : Ledger) : l.Continues l :=
  ⟨rfl, Rows.Extends.refl _, [], (append_nil _).symm, nofun⟩

theorem Ledger.commit_continues (l : Ledger) {sq : Int} (ops : List CommitOperation)
    (h : l.nextSequence ≤ sq) : l.Continues (l.commit sq ops) := by
  refine ⟨rfl, Rows.internAll_extends _ _, _, rfl, ?_⟩
  intro t ht
  rw [mem_singleton.mp ht]
  exact h

variable {l l' : Ledger}

theorem Ledger.replay_continues {rc : TransactionRecord}
    (h : l.replay rc = some l') : l.Continues l' := by
  by_cases ha : l.accepts rc
  · rw [replay_accepted ha] at h
    cases h
    exact l.commit_continues _ ha.1
  · rw [replay_refused ha] at h
    cases h

variable {root root' : Root} {calls : List StoreCall}

/-- What a call makes of a ledger, if it succeeds.  A load puts another in its place. -/
def Ledger.call (l : Ledger) : StoreCall → Option Ledger
  | .commit operations metadata =>
    if (canonicalValidateCommit operations metadata).isOk ∧ l.nextSequence ≠ sequenceBound then
      some (l.commit l.nextSequence operations)
    else none
  | .replay record | .replayResult record =>
    if validTransactionRecord record then l.replay record else none
  | .replayFused payload => (decodeRecordPayload payload).toOption.bind l.replay
  | .openFold | .closeFold => some l
  | .load _ => none

variable {cl : StoreCall}

theorem Ledger.call_continues (h : l.call cl = some l') :
    l.Continues l' := by
  cases cl with
  | commit ops m =>
    unfold call at h
    dsimp only at h
    split at h
    · cases h
      exact l.commit_continues ops (Int.le_refl _)
    · cases h
  | replay rc | replayResult rc =>
    unfold call at h
    dsimp only at h
    split at h
    · exact replay_continues h
    · cases h
  | replayFused pl =>
    obtain ⟨rc, -, hrep⟩ := Option.bind_eq_some_iff.mp h
    exact replay_continues hrep
  | openFold | closeFold =>
    cases h
    exact Continues.refl l
  | load d => cases h

/-- Both fail, or a store is left that holds the ledger, which is settled. -/
def Refines (H : Hashing) : Option Root → Option Ledger → Prop :=
  Option.Rel fun root l => Holds H root l ∧ l.Settled

theorem commit_refines (h : Holds H root l) (hs : l.Settled) (ops : List CommitOperation)
    (m : CommitMetadata) :
    Refines H ((StoreCall.commit ops m).run H root) (l.call (.commit ops m)) := by
  unfold StoreCall.run Ledger.call
  dsimp only
  by_cases hc : (canonicalValidateCommit ops m).isOk ∧ l.nextSequence ≠ sequenceBound
  · have hv : validOperations ops = true := by
      have hok := hc.1
      unfold canonicalValidateCommit at hok
      split at hok
      · simp_all
      · cases hok
    obtain ⟨root', co, hok⟩ := h.commits (m := m) hs.wf hv (h.nextSequence ▸ hc.2) hc.1
    obtain ⟨-, -, hhd, -⟩ := commitBoundary_spec h hs.wf hok
    rw [if_pos hc, hok]
    exact .some ⟨hhd, hs.commit hv (Int.le_refl _)⟩
  · rw [if_neg hc]
    cases hok : commitBoundary H root ops m with
    | error f => exact .none
    | ok out =>
      obtain ⟨-, hne, -⟩ := commitBoundary_spec h hs.wf hok
      unfold commitBoundary at hok
      cases hm : canonicalValidateCommit ops m with
      | error f =>
        rw [hm] at hok
        cases hok
      | ok v => exact absurd ⟨by rw [hm]; rfl, hne⟩ hc

/-- **A call refines what it makes of the ledger.** -/
theorem StoreCall.run_refines (h : Holds H root l) (hs : l.Settled)
    (hc : cl.isLoad = false) : Refines H (cl.run H root) (l.call cl) := by
  cases cl with
  | commit ops m => exact commit_refines h hs ops m
  | replay rc =>
    unfold run Ledger.call
    dsimp only
    by_cases hv : validTransactionRecord rc = true
    · have hsp := replayTransaction_spec h hs.wf hv
      rw [if_pos hv]
      cases hrep : l.replay rc with
      | none =>
        rw [hrep] at hsp
        obtain ⟨f, hf⟩ := hsp
        rw [hf]
        exact .none
      | some l' =>
        rw [hrep] at hsp
        obtain ⟨r, hok, hr⟩ := hsp
        rw [hok]
        exact .some ⟨hr.holds, hs.replay hv hrep⟩
    · unfold replayTransaction
      rw [if_neg hv, if_neg hv]
      exact .none
  | replayResult rc =>
    unfold run Ledger.call
    dsimp only
    by_cases hv : validTransactionRecord rc = true
    · have hsp := replayTransactionResult_spec h hv
      rw [if_pos hv]
      cases hrep : l.replay rc with
      | none =>
        rw [hrep] at hsp
        obtain ⟨f, hf⟩ := hsp
        rw [hf]
        exact .none
      | some l' =>
        rw [hrep] at hsp
        obtain ⟨r, hok, hr⟩ := hsp
        rw [hok]
        exact .some ⟨hr.holds, hs.replay hv hrep⟩
    · unfold replayTransactionResult
      rw [if_neg hv, if_neg hv]
      exact .none
  | replayFused pl =>
    unfold run Ledger.call
    dsimp only
    have hsp := replayRecordFused_spec h pl
    cases hrep : (decodeRecordPayload pl).toOption.bind l.replay with
    | none =>
      rw [hrep] at hsp
      obtain ⟨f, hf⟩ := hsp
      rw [hf]
      exact .none
    | some l' =>
      rw [hrep] at hsp
      obtain ⟨r, hok, hr⟩ := hsp
      rw [hok]
      obtain ⟨rc, hdec, hrep⟩ := Option.bind_eq_some_iff.mp hrep
      exact .some ⟨hr.holds, hs.replay (decodeRecordPayload_valid (toOption_eq_some hdec)) hrep⟩
  | openFold => exact .some ⟨(openFold_spec h).1, hs⟩
  | closeFold => exact .some ⟨(closeFold_spec h).1, hs⟩
  | load d => cases hc

/-- **A call that succeeds keeps a settled ledger**, and goes on with it unless it loads. -/
theorem StoreCall.run_continues (hl : Holds H root l) (hs : l.Settled)
    (hld : cl.LoadsDistinct) (hrun : cl.run H root = some root') :
    ∃ l', Holds H root' l' ∧ l'.Settled ∧ (cl.isLoad = false → l.Continues l') := by
  cases hc : cl.isLoad with
  | false =>
    have hr := run_refines hl hs hc
    rw [hrun] at hr
    cases hcall : l.call cl with
    | none =>
      rw [hcall] at hr
      cases hr
    | some l' =>
      rw [hcall] at hr
      cases hr with
      | some h => exact ⟨l', h.1, h.2, fun _ => Ledger.call_continues hcall⟩
  | true =>
    cases cl with
    | load d =>
      obtain ⟨lo, -, hwf, hn, hhd, -⟩ := loadTermStoreResult_spec hld (toOption_eq_some hrun)
      exact ⟨lo, hhd, Ledger.settled_of_nanFree hwf hn, fun h => by cases h⟩
    | _ => cases hc

theorem StoreCall.run_settled {c : StoreCall} (h : HoldsSettled H root)
    (hld : c.LoadsDistinct) (hrun : c.run H root = some root') : HoldsSettled H root' := by
  obtain ⟨l, hl, hs⟩ := h
  obtain ⟨l', hl', hs', -⟩ := run_continues hl hs hld hrun
  exact ⟨l', hl', hs'⟩

theorem StoreCall.runAll_settled :
    ∀ {root root' : Root}, HoldsSettled H root → (∀ cl ∈ calls, cl.LoadsDistinct) →
      runAll H root calls = some root' → HoldsSettled H root' := by
  induction calls with
  | nil =>
    intro root root' h _ hrun
    cases hrun
    exact h
  | cons cl r ih =>
    intro root root' h hld hrun
    obtain ⟨m, hca, hr⟩ := Option.bind_eq_some_iff.mp hrun
    exact ih (run_settled h (hld cl (mem_cons_self ..)) hca)
      (fun c hc => hld c (mem_cons_of_mem _ hc)) hr

theorem newTermStore_settled {sid : String} (h : newTermStore sid = .ok root) :
    HoldsSettled H root := by
  obtain ⟨hhd, -, hs⟩ := newTermStoreSized_holds (H := H) h
  exact ⟨_, hhd, Ledger.empty_settled hs⟩

theorem reachedStore_settled {sid : String} (hld : ∀ c ∈ calls, c.LoadsDistinct)
    (hrun : reachedStore H sid calls = some root) : HoldsSettled H root := by
  obtain ⟨fr, hnew, hrun⟩ := Option.bind_eq_some_iff.mp hrun
  exact StoreCall.runAll_settled (newTermStore_settled (toOption_eq_some hnew)) hld hrun

/-- **Every store a run reaches keeps the invariant of withdrawals**, when no dump that the run
    loads repeats a row. -/
theorem run_keeps_withdrawals {spaceId : String} {root : Root} {calls : List StoreCall}
    (hloads : ∀ call ∈ calls, call.LoadsDistinct)
    (hrun : reachedStore H spaceId calls = some root) : WithdrawalInvariant H root := by
  obtain ⟨l, hhd, hs⟩ := reachedStore_settled hloads hrun
  exact hhd.withdrawals hs

/-! ### A run, and a dump that repeats a row -/

/-- A dump with one assertion, and the row of its proposition twice. -/
def repeatedDump : TermStoreDump :=
  let row : TripleRow := ⟨atomHandle 0, atomHandle 1, atomHandle 2⟩
  { version := termStoreDumpVersion
    spaceId := "s"
    nextSequence := 2
    atoms := [atomRow (.string "a"), atomRow (.string "b"), atomRow (.bool true)]
    triples := [row, row]
    transactions := [⟨1, 0, 1⟩]
    operations := [⟨1, 0, .assert, tripleHandle 1⟩] }

/-- The same with the row once. -/
def greetingDump : TermStoreDump :=
  { repeatedDump with
    triples := [⟨atomHandle 0, atomHandle 1, atomHandle 2⟩]
    operations := [⟨1, 0, .assert, tripleHandle 0⟩] }

/-- Retract the proposition of the greeting. -/
def withdrawGreeting : StoreCall :=
  .commit [⟨.retract, ⟨.atom (.string "a"), .atom (.string "b"), .atom (.bool true)⟩⟩]
    (commitMetadata "p" "s" none)

/-- A load, a commit and a fold that is opened and closed. -/
theorem greeting_run_keeps_withdrawals : ∃ root, reachedStore Hashing.fnv "s"
        [.load greetingDump, .openFold, withdrawGreeting, .closeFold] = some root ∧
      WithdrawalInvariant Hashing.fnv root := by
  obtain ⟨root, hrun⟩ := Option.isSome_iff_exists.mp (show (reachedStore Hashing.fnv "s"
    [.load greetingDump, .openFold, withdrawGreeting, .closeFold]).isSome = true by decide +kernel)
  refine ⟨root, hrun, run_keeps_withdrawals ?_ hrun⟩
  intro c hcall
  rcases mem_cons.mp hcall with rfl | hcall
  · exact ⟨by decide, by decide⟩
  · rcases mem_cons.mp hcall with rfl | hcall
    · trivial
    · rcases mem_cons.mp hcall with rfl | hcall
      · trivial
      · rw [mem_singleton.mp hcall]
        trivial

/-- After the dump that repeats a row the proposition is live, and its retraction withdraws
    nothing. -/
theorem repeated_row_is_not_withdrawn :
    ∃ root, reachedStore Hashing.fnv "s" [.load repeatedDump, withdrawGreeting] = some root ∧
      ¬WithdrawalInvariant Hashing.fnv root := by
  obtain ⟨root, hrun⟩ := Option.isSome_iff_exists.mp (show (reachedStore Hashing.fnv "s"
    [.load repeatedDump, withdrawGreeting]).isSome = true by decide +kernel)
  refine ⟨root, hrun, ?_⟩
  have hs : (reachedStore Hashing.fnv "s" [.load repeatedDump, withdrawGreeting]).map
      (fun root => (root.store.withdrawalTargets, root.store.operations,
        (resolveTripleHandle root.store (tripleHandle 0)).toOption,
        (resolveTripleHandle root.store (tripleHandle 1)).toOption))
      = some ([none, none], [⟨1, 0, .assert, tripleHandle 1⟩, ⟨2, 0, .retract, tripleHandle 0⟩],
        some ⟨.atom (.string "a"), .atom (.string "b"), .atom (.bool true)⟩,
        some ⟨.atom (.string "a"), .atom (.string "b"), .atom (.bool true)⟩) := by
    decide +kernel
  rw [hrun] at hs
  simp only [Option.map_some, Option.some.injEq, Prod.mk.injEq] at hs
  obtain ⟨ht, hops, hz, hone⟩ := hs
  intro h
  have hn := h.unmatched 1 ⟨2, 0, .retract, tripleHandle 0⟩ (by rw [hops]; rfl) rfl
  refine hn.mp (by rw [ht]; rfl) 0 ⟨by decide, ⟨_, by rw [hops]; rfl, rfl, ?_⟩, ?_⟩
  · exact ⟨_, _, toOption_eq_some hone, toOption_eq_some hz, by decide⟩
  · intro j hj
    rw [ht, Nat.lt_one_iff.mp hj]
    exact nofun

/-! ### Stores that hold one ledger -/

theorem optionRel_bind {α β γ δ : Type} {R : α → β → Prop} {S : γ → δ → Prop} {x : Option α}
    {y : Option β} {f : α → Option γ} {g : β → Option δ} (h : Option.Rel R x y)
    (hf : ∀ a b, R a b → Option.Rel S (f a) (g b)) : Option.Rel S (x.bind f) (y.bind g) := by
  cases h with
  | none => exact .none
  | some h => exact hf _ _ h

theorem StoreCall.runAll_refines (hno : ∀ c ∈ calls, c.isLoad = false) (h : Holds H root l)
    (hs : l.Settled) : Refines H (runAll H root calls) (calls.foldlM Ledger.call l) := by
  induction calls generalizing root l with
  | nil => exact .some ⟨h, hs⟩
  | cons cl rest ih =>
    refine optionRel_bind (run_refines h hs (hno cl mem_cons_self)) fun root' l' hr => ?_
    exact ih (fun c hc => hno c (mem_cons_of_mem _ hc)) hr.1 hr.2

variable {spaceId : String}

/-- **A fresh store runs as the empty ledger does**: the run succeeds when the ledger's does, and
    leaves a store that holds what the ledger becomes. -/
theorem store_runs_as_ledger (hfresh : newTermStore spaceId = .ok root)
    (hno : ∀ call ∈ calls, call.isLoad = false) : Refines H
      (StoreCall.runAll H root calls) (calls.foldlM Ledger.call (Ledger.empty spaceId)) := by
  obtain ⟨hhd, -, hs⟩ := newTermStoreSized_holds (H := H) hfresh
  exact StoreCall.runAll_refines hno hhd (Ledger.empty_settled hs)

/-- A retraction on a fresh store, in an open fold. -/
theorem withdrawal_runs_as_ledger : ∃ root, newTermStore "s" = .ok root ∧ Refines Hashing.fnv
    (StoreCall.runAll Hashing.fnv root [.openFold, withdrawGreeting])
    ([.openFold, withdrawGreeting].foldlM Ledger.call (Ledger.empty "s")) := by
  obtain ⟨root, h⟩ := newTermStoreSized_exists [] (show "s" ≠ "" by decide) 0 0 0
  exact ⟨root, h, store_runs_as_ledger h (by decide)⟩

theorem Refines.same {x y : Option Root} {o : Option Ledger} (hx : Refines H x o)
    (hy : Refines H y o) : Option.Rel (SameStore H) x y := by
  cases hx with
  | none =>
    cases hy
    exact .none
  | some hx =>
    cases hy with
    | some hy => exact .some (hx.1.same hy.1)

/-- **Stores that hold one ledger run alike.** -/
theorem Holds.runs_alike {other : Root} (h : Holds H root l) (ho : Holds H other l)
    (hs : l.Settled) (hno : ∀ c ∈ calls, c.isLoad = false) : Option.Rel (SameStore H)
      (StoreCall.runAll H root calls) (StoreCall.runAll H other calls) :=
  (StoreCall.runAll_refines hno h hs).same (StoreCall.runAll_refines hno ho hs)

theorem Holds.of_dump (h : Holds H root l') (hd : l'.dump = l.dump) :
    Holds H root l := by
  have hops : l'.operations = l.operations := congrArg TermStoreDump.operations hd
  exact ⟨h.indexed, h.shaped, hops ▸ h.derived, h.dump.trans hd⟩

/-- A dump of the store is taken exactly when it has no NaN, and what is made of it goes on as the
    store does. -/
structure RestoresAlike (H : Hashing) (other root : Root) : Prop where
  taken : (∃ restored, loadTermStoreResult H other (dumpTermStore root.store) = .ok restored) ↔
    root.store.rows.NanFree
  alike : ∀ restored, loadTermStoreResult H other (dumpTermStore root.store) = .ok restored →
    ∀ later : List StoreCall, (∀ call ∈ later, call.isLoad = false) → Option.Rel (SameStore H)
      (StoreCall.runAll H restored later) (StoreCall.runAll H root later)

end Beagle.Store
