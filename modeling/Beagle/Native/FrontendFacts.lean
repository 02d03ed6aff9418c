/-
The facts that the frontend reads from a source.

A bundle is one source: its text, the facts of its syntax, its imports and its rewrites.  A
closure is the bundles of a program in order, with their digests.
-/
import Beagle.Native.Text

namespace Beagle.FrontendFacts

structure SourceSpan where
  path : String
  startByte : Int
  endByte : Int
  line : Int
  column : Int
deriving DecidableEq

inductive FactValue where
  | nodeRef (nodeId : String)
  | text (value : String)
  | bool (value : Bool)
  | int (value : Int)
  | nil
deriving DecidableEq

/-- A fact; its relation is a keyword, by its name. -/
structure CompilerFact where
  order : Int
  relation : String
  subject : String
  slot : Int
  value : FactValue
  span : Option SourceSpan
deriving DecidableEq

structure ImportEdgeFact where
  order : Int
  importer : String
  required : String
  aliasName : Option String
  referred : List String
  span : SourceSpan
deriving DecidableEq

structure MacroRewriteFact where
  order : Int
  macroId : String
  inputNode : String
  resultNode : String
  span : SourceSpan
deriving DecidableEq

structure SyntaxFactBundle where
  path : String
  namespaceName : Option String
  sourceText : String
  sourceDigest : String
  profile : String
  facts : List CompilerFact
  imports : List ImportEdgeFact
  rewrites : List MacroRewriteFact
deriving DecidableEq

structure SyntaxFactClosure where
  entryPath : String
  modules : List SyntaxFactBundle
  closureDigest : String
  interfaceDigests : List String
deriving DecidableEq

structure FactError where
  span : SourceSpan
  code : String
  message : String
deriving DecidableEq

end Beagle.FrontendFacts
