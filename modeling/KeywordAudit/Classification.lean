import KeywordAudit.Descriptor
import KeywordAudit.Glob
import KeywordAudit.Program.Basic

/-!
# Classification of call targets

Where a model does not say whether the target of a call is an interesting interface or belongs to
a library, the class of the target decides, by name patterns.
-/

namespace KeywordAudit

/-- The name patterns by which classes are told apart. -/
structure Classification where
  /-- The classes whose methods are worth a look. -/
  interestingApis : List String := ["android.*", "java.*", "javax.*", "org.apache.http.*"]
  /-- The classes that belong to libraries. -/
  libraryPackages : List String :=
    ["android.support.*", "androidx.*", "com.google.*", "com.squareup.*", "okhttp3.*", "okio.*",
      "retrofit2.*", "io.reactivex.*", "kotlin.*", "kotlinx.*", "org.apache.*"]
  /-- The classes that only stand for the platform. -/
  syntheticEntryClasses : List String := ["dummyMainClass"]
deriving DecidableEq, Repr, Inhabited

namespace Classification

/-- Whether the class of a target fits one of the patterns; a target without class fits none. -/
def targetFits (patterns : List String) (target : String) : Bool :=
  (Descriptor.classOf? target).any (Glob.fitsAny patterns)

/-- Whether the class of a target is worth a look. -/
def isInteresting (c : Classification) (target : String) : Bool :=
  targetFits c.interestingApis target

/-- Whether the class of a target belongs to a library. -/
def isLibrary (c : Classification) (target : String) : Bool :=
  targetFits c.libraryPackages target

/-- The call of a target; what is said explicitly goes before the patterns. -/
def invocation (c : Classification) (target : String) (interesting library : Option Bool) :
    Invocation where
  target := target
  interesting := interesting.getD (c.isInteresting target)
  library := library.getD (c.isLibrary target)

end Classification
end KeywordAudit
