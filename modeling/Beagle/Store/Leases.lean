/-
Leases and fences, as the mutation path and the lease operations read them.

A lease is a live proposition (resource, :kernel/lease, (holder, :kernel/expires-at, expiry)), and
its epoch is the sequence of the transaction that asserted it.  A fence names a resource, its holder
and the epoch that is expected.  The mutation path finds the lease by a fold over the live
occurrences of the store, the lease operations look it up in the rotation of the session.
-/
import Beagle.Store.Rotation

namespace Beagle.Store

open Beagle.Lib

/-! ### Records and lists on the wire -/

def rpcKeyword (spelling : String) : Term := .atom (.keyword ⟨spelling⟩)

def maxListValues : Nat := 65536

def rpcList (values : List Term) : Term :=
  values.foldr (fun value tail => .triple (rpcKeyword "rpc/list") value tail)
    (rpcKeyword "rpc/list-end")

def rpcRecord (tag : String) (fields : List Term) : Triple :=
  ⟨rpcKeyword tag, rpcList fields, rpcKeyword "rpc/record"⟩

def rpcOption : Option Term → Term
  | none => rpcKeyword "rpc/none"
  | some value => .triple (rpcKeyword "rpc/some") value (rpcKeyword "rpc/option")

/-- The values of a list, of which so many have been read. -/
def readListFrom (count : Nat) : Term → Except String (List Term)
  | .atom value =>
    if (Term.atom value).same (rpcKeyword "rpc/list-end") then .ok []
    else if maxListValues ≤ count then .error "RPC list exceeds the Term node bound"
    else .error "RPC list must end with :rpc/list-end"
  | .triple t1 t2 t3 =>
    if maxListValues ≤ count then .error "RPC list exceeds the Term node bound"
    else if (rpcKeyword "rpc/list").same t1 then (readListFrom (count + 1) t3).map (t2 :: ·)
    else .error "RPC list must end with :rpc/list-end"

def readList (value : Term) : Except String (List Term) := readListFrom 0 value

def readRpcRecord (value : Term) (tag : String) (fieldCount : Nat) : Except String (List Term) :=
  match termAsTriple value with
  | none => .error "RPC record tag or marker is invalid"
  | some triple =>
    if (rpcKeyword tag).same triple.t1 ∧ (rpcKeyword "rpc/record").same triple.t3 then
      match readList triple.t2 with
      | .error message => .error message
      | .ok values =>
        if values.length = fieldCount then .ok values
        else .error "RPC record contains the wrong number of fields"
    else .error "RPC record tag or marker is invalid"

structure RpcRequest where
  space : String
  op : Keyword
  payload : Term
deriving DecidableEq, Repr

structure RpcError where
  code : Keyword
  retryable : Bool
  message : String
deriving DecidableEq, Repr

structure RpcResponse where
  space : String
  op : Keyword
  servedVersion : Int
  error : Option RpcError
  payload : Option Term
deriving DecidableEq, Repr

def response (request : RpcRequest) (servedVersion : Int) (payload : Term) : RpcResponse :=
  ⟨request.space, request.op, servedVersion, none, some payload⟩

def errorResponse (request : RpcRequest) (servedVersion : Int) (code : String) (retryable : Bool)
    (message : String) : RpcResponse :=
  ⟨request.space, request.op, servedVersion, some ⟨⟨code⟩, retryable, message⟩, none⟩

structure Fence where
  resource : Term
  holder : Term
  epoch : Int64
deriving DecidableEq, Repr

/-- The Int that a Term is. -/
def termInt : Term → Option Int64
  | .atom (.int value) => some value
  | _ => none

/-- The three fields of a fence, the last of which is an Int. -/
def fenceOf : List Term → Option Fence
  | [resource, holder, epoch] => (termInt epoch).map (⟨resource, holder, ·⟩)
  | _ => none

/-! ### The mutation path -/

namespace Dispatch

/-- No fence, a fence, or the code and the text of a failure. -/
def parseFence : Except String (Option Term) → Except (Keyword × String) (Option Fence)
  | .error _ => .error (⟨"rpc-invalid-payload"⟩, "mutation fence option is malformed")
  | .ok none => .ok none
  | .ok (some value) =>
    match readRpcRecord value "rpc/fence" 3 with
    | .error _ => .error (⟨"rpc-invalid-payload"⟩, "mutation fence is malformed")
    | .ok values =>
      match fenceOf values with
      | none => .error (⟨"rpc-invalid-payload"⟩, "mutation fence fields are invalid")
      | some fence => .ok (some fence)

structure LeaseState where
  found : Bool
  holder : Option Term
  expiresMs : Int64
  epoch : Int64
deriving DecidableEq, Repr

def occurrenceSequence (occurrence : Term) : Int64 :=
  match occurrenceCoordinateOf occurrence with
  | some (_, sequence, _) => sequence
  | none => 0

/-- The holder and the expiry of a lease event. -/
def leaseEvent (event : OperationOccurrence) : Option (Term × Int64) :=
  if (rpcKeyword "kernel/lease").same event.proposition.t2 then
    match termAsTriple event.proposition.t3 with
    | some value =>
      if (rpcKeyword "kernel/expires-at").same value.t2 then
        (termInt value.t3).map (value.t1, ·)
      else none
    | none => none
  else none

/-- One live occurrence, after what is known of the resource's lease. -/
def leaseStep (resource : Term) (known : LeaseState) (event : OperationOccurrence) : LeaseState :=
  match leaseEvent event with
  | some (holder, expiresMs) =>
    if resource.same event.proposition.t1 then
      ⟨true, some holder, expiresMs, occurrenceSequence event.coordinate.term⟩
    else known
  | none => known

def currentLease (H : Hashing) (root : Root) (resource : Term) : Except Fault LeaseState := do
  let live ← liveOccurrences H root
  pure (live.foldl (leaseStep resource) ⟨false, none, 0, 0⟩)

def fenceValid (H : Hashing) (root : Root) (fence : Option Fence) (nowMs : Int64) :
    Except Fault Bool :=
  match fence with
  | none => pure true
  | some fence => do
      let lease ← currentLease H root fence.resource
      pure (lease.found && (lease.holder.any (fence.holder.same ·) &&
        (fence.epoch == lease.epoch && decide (nowMs.toInt < lease.expiresMs.toInt))))

end Dispatch

/-! ### The lease operations -/

namespace LeaseOps

def parseFence (value : Term) : Except String Fence :=
  match readRpcRecord value "rpc/fence" 3 with
  | .error message => .error message
  | .ok values =>
    match fenceOf values with
    | none => .error "lease fence requires Term resource/holder and an integer epoch"
    | some fence => .ok fence

structure LeaseState where
  resource : Term
  holder : Term
  expiresMs : Int64
  epoch : Int64
  occurrence : Triple
  proposition : Triple
deriving DecidableEq, Repr

def leaseState (event : OperationOccurrence) : Option LeaseState :=
  let proposition := event.proposition
  let occurrence := event.coordinate
  if (rpcKeyword "kernel/lease").same proposition.t2 then
    match termAsTriple proposition.t3 with
    | none => none
    | some value =>
      if (rpcKeyword "kernel/expires-at").same value.t2 then
        match termInt value.t3, occurrenceCoordinateOf occurrence.term with
        | some expiresMs, some _ =>
          match (termAsTriple occurrence.t1).bind fun transaction => termInt transaction.t3 with
          | some epoch =>
            some ⟨proposition.t1, value.t1, expiresMs, epoch, occurrence, proposition⟩
          | none => none
        | _, _ => none
      else none
  else none

/-- The last lease among the events of a leaf. -/
def currentLease (K : KeyHashing) (view : Rotation) (resource : Term) : Option LeaseState :=
  (view.byT12 K resource (rpcKeyword "kernel/lease")).foldl (fun current event =>
    match leaseState event with
    | none => current
    | some candidate => some candidate) none

/-- `lease-held?`. -/
def held (lease : Option LeaseState) (nowMs : Int64) : Bool :=
  lease.any fun lease => decide (nowMs.toInt < lease.expiresMs.toInt)

def matchingFence (lease : Option LeaseState) (fence : Fence) : Bool :=
  lease.any fun lease =>
    lease.resource.same fence.resource &&
      (lease.holder.same fence.holder && lease.epoch == fence.epoch)

def matchingExpiry (lease : Option LeaseState) (fence : Fence) : Option Int64 :=
  match lease with
  | none => none
  | some found => if matchingFence lease fence then some found.expiresMs else none

/-- `millis->instant`: whole seconds towards zero, and the milliseconds left over from below. -/
def instantOfMillis (value : Int64) : Instant where
  epochSeconds := .ofInt (value.toInt.tdiv 1000)
  nanos := (value.toInt % 1000).toNat * 1000000
  canonical := by omega

def checkRecord (valid : Bool) (expiresMs : Option Int64) : Triple :=
  rpcRecord "lease/check" [.atom (.bool valid),
    rpcOption (expiresMs.map fun expiresMs => .atom (.instant (instantOfMillis expiresMs)))]

/-- Is the fence the current lease's, and is that lease held? -/
def leaseValid (K : KeyHashing) (view : Rotation) (fence : Fence) (nowMs : Int64) : Bool :=
  let prior := currentLease K view fence.resource
  (matchingExpiry prior fence).isSome && held prior nowMs

/-- The answer to `rpc/lease-check`. -/
def checkResponse (K : KeyHashing) (root : Root) (view : Rotation) (request : RpcRequest)
    (nowMs : Int64) : RpcResponse :=
  let servedVersion := currentSequence root.store
  match parseFence request.payload with
  | .error message =>
    errorResponse request servedVersion "rpc-invalid-payload" false message
  | .ok fence =>
    let prior := currentLease K view fence.resource
    response request servedVersion
      (checkRecord (leaseValid K view fence nowMs) (matchingExpiry prior fence)).term

end LeaseOps

end Beagle.Store
