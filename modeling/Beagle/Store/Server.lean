/-
A server over the log that its host keeps.

The generated code folds the log into a store and encodes what a commit adds; the host cuts the log
behind its last whole record, appends, and compacts by folding the log again.  A commit is served
when its bytes are in the log.  An append that fails leaves some of them there and poisons the log.
-/
import Beagle.Store.Boot

namespace Beagle.Store

structure Server where
  log : List UInt8
  store : Root
  logByteCount : Nat
  poisoned : Bool

section

variable (H : Hashing) (spaceId : String)

/-- `fold-store!`, where the host serves no snapshot object. -/
def foldStore (log : List UInt8) : Except Failure BootResult := do
  let completed ← consumeTransactionLogHeader H spaceId log
  .ok ⟨closeFold completed.store, completed.validLogBytes, completed.bootAppend⟩

def repairLogTail (log : List UInt8) (validLength : Nat) : Except Failure (List UInt8) :=
  if log.length < validLength then
    .error (.error "generated Store transaction log recovery returned an invalid prefix")
  else .ok (log.take validLength)

def bootWithHost (log : List UInt8) : Except Failure Server := do
  let boot ← foldStore H spaceId log
  let repaired ← repairLogTail log boot.validLogBytes
  .ok ⟨repaired ++ boot.bootAppend, boot.store, boot.validLogBytes + boot.bootAppend.length, false⟩

def compactStore (server : Server) : Except Failure Server := do
  let boot ← foldStore H spaceId server.log
  if boot.bootAppend.length ≠ 0 ∨ boot.validLogBytes ≠ server.log.length then
    .error (.error "generated compaction did not consume the canonical Store transaction log")
  else .ok { server with store := boot.store, logByteCount := boot.validLogBytes }

/-- `compiler-commit!`: the next store and what the log grows by, if anything changes. -/
def compilerCommit (store : Root) (operations : List CommitOperation) :
    Except Failure (Option (Root × List UInt8)) :=
  if operations.isEmpty then .ok none
  else do
    let committed ← liftFault (commitBoundary H store operations
      (commitMetadata "store.compiler" "fact-profile" none))
    let append ← encodeStoreAppend committed.1 (currentSequence store.store)
    .ok (some (committed.1, append))

inductive HostEvent where
  /-- An append that fails leaves so many of its bytes in the log. -/
  | write (operations : List CommitOperation) (failsAfter : Option Nat)
  | compact
  | restart

/-- A server, the commits whose write it acknowledged, and all that it tried to append. -/
structure Service where
  server : Server
  acknowledged : List (List CommitOperation)
  tried : List (List CommitOperation × List UInt8)

/-- The service after an event.  A request that is refused leaves it; a boot that fails ends it. -/
def Service.step (service : Service) : HostEvent → Option Service
  | .write operations failsAfter =>
    let server := service.server
    match server.poisoned, compilerCommit H server.store operations with
    | false, .ok (some (store, append)) =>
      let tried := service.tried ++ [(operations, append)]
      match failsAfter with
      | none => some
        ⟨⟨server.log ++ append, store, server.logByteCount + append.length, false⟩,
          service.acknowledged ++ [operations], tried⟩
      | some n => some
        ⟨{ server with log := server.log ++ append.take n, poisoned := true },
          service.acknowledged, tried⟩
    | _, _ => some service
  | .compact =>
    match service.server.poisoned, compactStore H spaceId service.server with
    | false, .ok server => some { service with server }
    | _, _ => some service
  | .restart => (bootWithHost H spaceId service.server.log).toOption.map fun server =>
    { service with server }

def Service.runAll (service : Service) : List HostEvent → Option Service
  | [] => some service
  | event :: rest => (service.step H spaceId event).bind fun service' => runAll service' rest

/-- The service that some events make of an empty log. -/
def reachedService (events : List HostEvent) : Option Service :=
  (bootWithHost H spaceId []).toOption.bind fun server =>
    Service.runAll H spaceId ⟨server, [], []⟩ events

end

end Beagle.Store
