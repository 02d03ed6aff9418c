/-
The schema layer: the identities and the spellings of predicates.

A predicate is its first spelling until it is renamed; then that Term stays the identity,
and what is live under `predicate_name` and `predicate_alias` says how it is spelled.  A
session is a store with the rotation projected from it.  Every write commits one
transaction and refreshes the rotation, and the writes of one call are not undone when a
later one throws.
-/
import Beagle.Lib.Computations
import Beagle.Store.Txn

namespace Beagle.Store.Schema

open Beagle.Lib

/-! ### Sessions -/

structure Session where
  root : Root
  view : Rotation

/-- What a refusal to spell a predicate carries. -/
structure Collision where
  message : String
  predicate : String
  newName : Option String
  aliasName : Option String
  ids : List Term

inductive Thrown where
  | collision (found : Collision)
  | fault (message : String)

section

variable {α : Type}

/-- A question to the session.  A trap ends the run, and gives nothing. -/
def ask (question : Session → Except Fault α) : Attempt Session Thrown α := fun s =>
  match question s with
  | .ok answer => some (.ok answer, s)
  | .error (.thrown message) => some (.error (.fault message), s)
  | .error .trap => none

end

def text (spelling : String) : Term := .atom (.string spelling)

def namePredicate : String := "name"
def cardinalityPredicate : String := "cardinality"
def valueKindPredicate : String := "value_kind"
def predicateNamePredicate : String := "predicate_name"
def predicateAliasPredicate : String := "predicate_alias"

def single : String := "single"
def multi : String := "multi"
def literalKind : String := "literal"

/-- `distinct`: the first of equal Terms. -/
def distinct : List Term → List Term
  | [] => []
  | term :: rest => term :: (distinct rest).filter fun other => !term.same other

def subjects (events : List OperationOccurrence) : List Term := events.map (·.proposition.t1)

section

variable (K : KeyHashing) (H : Hashing)

def openSession (root : Root) : Except Fault Session := (project K H root).map (Session.mk root)

/-- `commit!`: commit, and refresh the view. -/
def commit (builder : Builder) : Attempt Session Thrown Unit := do
  let committed ← ask fun s => builder.commit H s.root
  Attempt.modify fun s => { s with root := committed.1 }
  let view ← ask fun s => refresh K s.view s.root
  Attempt.modify fun s => { s with view }

/-! ### Resolving -/

def predicateIds (s : Session) (spelling : String) : List Term :=
  distinct (subjects (s.view.byT23 K (text predicateNamePredicate) (text spelling)) ++
    subjects (s.view.byT23 K (text predicateAliasPredicate) (text spelling)))

def resolvePredicate (spelling : String) : Attempt Session Thrown (Option Term) := do
  let s ← Attempt.get
  match predicateIds K s spelling with
  | [] => pure none
  | [id] => pure (some id)
  | ids => Attempt.raise (.collision
      ⟨"predicate spelling collision: " ++ spelling, spelling, none, none, ids⟩)

/-- Is a spelling in use, and not by the candidate alone? -/
def taken (candidate : Option Term) : List Term → Bool
  | [] => false
  | [id] => !candidate.any fun other => other.same id
  | _ => true

end

section

variable (K : KeyHashing) (H : Hashing) (str : Term → String)

/-- The newest name; `str` renders a Term that is no string. -/
def predicateName (s : Session) (pid : Term) : String :=
  let raw := match (s.view.byT12 K pid (text predicateNamePredicate)).getLast? with
    | some event => event.proposition.t3
    | none => pid
  match raw with
  | .atom (.string name) => name
  | other => str other

/-- The name of the candidate, or the spelling where there is none. -/
def canonicalName (s : Session) (spelling : String) : Option Term → String
  | some pid => predicateName K str s pid
  | none => spelling

/-- `assert!` of the builder. -/
def asserting (builder : Builder) (proposition : Triple) : Except Fault Builder :=
  (builder.append [assertOperation proposition]).map Prod.fst

/-- What a registration writes: a name where there is none, and the default alias where it is
    free. -/
def registration (root : Root) (pid : Term) (spelling : String)
    (defaultAlias : String) (named free : Bool) : Except Fault Builder := do
  let builder ← openBuilder root
  let builder ← if named then .ok builder else
    asserting builder ⟨pid, text predicateNamePredicate, text spelling⟩
  if free then asserting builder ⟨pid, text predicateAliasPredicate, text defaultAlias⟩
  else .ok builder

def registerPredicate (spelling : String) : Attempt Session Thrown Term := do
  let candidate ← resolvePredicate K spelling
  let s ← Attempt.get
  let canonical := canonicalName K str s spelling candidate
  let defaultAlias := ":" ++ canonical
  let aliasIds := predicateIds K s defaultAlias
  if taken candidate aliasIds then
    Attempt.raise (.collision ⟨"predicate alias collision: " ++ defaultAlias, canonical, none,
      some defaultAlias, aliasIds⟩)
  else do
    let pid := candidate.getD (text spelling)
    let named := s.view.byT12 K pid (text predicateNamePredicate)
    let builder ← ask fun s =>
      registration s.root pid spelling defaultAlias (!named.isEmpty) aliasIds.isEmpty
    if builder.operations.isEmpty then pure pid
    else do
      commit K H builder
      pure pid

/-! ### Writing -/

/-- The text of the oldest cardinality; what is not said or is no string is `multi`. -/
def cardinalityOf (events : List OperationOccurrence) : String :=
  match events with
  | [] => multi
  | event :: _ =>
    match event.proposition.t3 with
    | .atom (.string value) => value
    | _ => multi

def cardinality (pname : String) : Attempt Session Thrown String := do
  let pid ← resolvePredicate K pname
  let card ← resolvePredicate K cardinalityPredicate
  let s ← Attempt.get
  match pid, card with
  | some pid, some card => pure (cardinalityOf (s.view.byT12 K pid card))
  | _, _ => pure multi

/-- The write of `assert!`, once its predicate is registered. -/
def writeValue (subject pid : Term) (pname : String) (value : Term) :
    Attempt Session Thrown Triple := do
  let builder ← ask fun s => openBuilder s.root
  let card ← cardinality K pname
  let written ← ask fun s =>
    if card = single then builder.updateSingle K s.view subject pid value
    else builder.append [assertOperation ⟨subject, pid, value⟩]
  commit K H written.1
  pure written.2

/-- `assert!`. -/
def assertValue (subject : Term) (pname : String) (value : Term) :
    Attempt Session Thrown Triple := do
  let pid ← registerPredicate K H str pname
  writeValue K H subject pid pname value

def defPredicate (pname card kind : String) : Attempt Session Thrown Term := do
  let pid ← registerPredicate K H str pname
  let _ ← assertValue K H str pid cardinalityPredicate (text card)
  let _ ← assertValue K H str pid valueKindPredicate (text kind)
  pure pid

/-- One more alias, in a transaction of its own. -/
def addAlias (pid : Term) (aliasName : String) : Attempt Session Thrown Unit := do
  let builder ← ask fun s => do
    let builder ← openBuilder s.root
    asserting builder ⟨pid, text predicateAliasPredicate, text aliasName⟩
  commit K H builder

def aliasPredicate (spelling aliasName : String) : Attempt Session Thrown Term := do
  let resolved ← resolvePredicate K spelling
  let s ← Attempt.get
  let idsBefore := predicateIds K s aliasName
  if taken resolved idsBefore then
    Attempt.raise (.collision ⟨"predicate spelling collision: " ++ aliasName, spelling, none,
      some aliasName, idsBefore⟩)
  else do
    let pid ← registerPredicate K H str spelling
    let s ← Attempt.get
    if (predicateIds K s aliasName).isEmpty then do
      addAlias K H pid aliasName
      pure pid
    else pure pid

/-- The old name, kept as an alias where it is this predicate's alone and not yet one. -/
def keepOldName (pid : Term) (oldName : String) : Attempt Session Thrown Unit := do
  let s ← Attempt.get
  let aliases := s.view.byT23 K (text predicateAliasPredicate) (text oldName)
  match predicateIds K s oldName with
  | [id] => if pid.same id && aliases.isEmpty then addAlias K H pid oldName else pure ()
  | _ => pure ()

def renamePredicate (spelling newName : String) : Attempt Session Thrown Term := do
  let resolved ← resolvePredicate K spelling
  let s ← Attempt.get
  let nameIds := predicateIds K s newName
  let defaultAlias := ":" ++ newName
  let aliasIds := predicateIds K s defaultAlias
  if taken resolved nameIds then
    Attempt.raise (.collision ⟨"predicate spelling collision: " ++ newName, spelling, some newName,
      none, nameIds⟩)
  else if taken resolved aliasIds then
    Attempt.raise (.collision ⟨"predicate alias collision: " ++ defaultAlias, spelling,
      some newName, some defaultAlias, aliasIds⟩)
  else do
    let pid ← registerPredicate K H str spelling
    let s ← Attempt.get
    let oldName := predicateName K str s pid
    if oldName = newName then pure pid
    else do
      keepOldName K H pid oldName
      let _ ← assertValue K H str pid predicateNamePredicate (text newName)
      let _ ← aliasPredicate K H str newName defaultAlias
      pure pid

def setup : Attempt Session Thrown Unit := do
  let _ ← defPredicate K H str cardinalityPredicate single literalKind
  let _ ← defPredicate K H str valueKindPredicate single literalKind
  let _ ← defPredicate K H str namePredicate single literalKind
  let _ ← defPredicate K H str predicateNamePredicate single literalKind
  let _ ← defPredicate K H str predicateAliasPredicate multi literalKind
  pure ()

/-! ### Runs -/

inductive Call where
  | register (spelling : String)
  | define (pname card kind : String)
  | addAlias (spelling aliasName : String)
  | rename (spelling newName : String)

def Call.run : Call → Attempt Session Thrown Term
  | .register spelling => registerPredicate K H str spelling
  | .define pname card kind => defPredicate K H str pname card kind
  | .addAlias spelling aliasName => aliasPredicate K H str spelling aliasName
  | .rename spelling newName => renamePredicate K H str spelling newName

/-- The session of a new store, set up. -/
def SetUp (spaceId : String) (s : Session) : Prop :=
  ∃ root fresh, newTermStore spaceId = .ok root ∧ openSession K H root = .ok fresh ∧
    setup K H str fresh = some (.ok (), s)

/-- Calls lead from one session to another, each of them returning or throwing. -/
inductive Leads (s : Session) : Session → Prop
  | refl : Leads s s
  | call {middle s' : Session} {call : Call} {result : Except Thrown Term} : Leads s middle →
      call.run K H str middle = some (result, s') → Leads s s'

/-- The spelling is this predicate's. -/
def Resolves (s : Session) (spelling : String) (pid : Term) : Prop :=
  resolvePredicate K spelling s = some (.ok (some pid), s)

end

end Beagle.Store.Schema
