import KeywordAudit.Yaml.Token

/-!
# YAML documents

A document is a tree of scalars, sequences and mappings.  A node may carry an anchor, and a
reference stands for the node that carries it.  `Node.ofTokens?` reads the only document of a list
of tokens; where something may be left out, an empty plain scalar stands for it.
-/

namespace KeywordAudit
namespace Yaml

/-- A node of a document; `A` is what anchors are known by. -/
inductive Node (A : Type) where
  | reference (target : A)
  | scalar (anchor : Option A) (tag : Option String) (text : String) (style : Style)
  | sequence (anchor : Option A) (items : List (Node A))
  | mapping (anchor : Option A) (entries : List (Node A × Node A))
deriving Inhabited

/-- The scalar that stands for what is left out. -/
def emptyScalar {A : Type} : Node A := .scalar none none "" .plain

/-! ## Tags -/

/-- What the handles of tags stand for. -/
abbrev Handles := List (String × String)

/-- The handles that need no directive. -/
def standardHandles : Handles := [("!", "!"), ("!!", "tag:yaml.org,2002:")]

/-- The full tag of a handle and a suffix; a handle that is not known is refused. -/
def fullTag? (handles : Handles) (handle suffix : String) : Option String :=
  if handle = "" then some suffix else (handles.lookup handle).map (· ++ suffix)

/-- The properties in front of a node. -/
structure Properties where
  anchor : Option String := none
  tag : Option String := none

/-- Whether there is any property. -/
def Properties.isGiven (p : Properties) : Bool := p.anchor.isSome || p.tag.isSome

/-- Takes the anchor and the tag in front of a node, in any order. -/
def takeProperties? (handles : Handles) : List Token → Option (Properties × List Token)
  | .anchor name :: .tag handle suffix :: rest =>
    (fullTag? handles handle suffix).map fun tag => (⟨some name, some tag⟩, rest)
  | .anchor name :: rest => some (⟨some name, none⟩, rest)
  | .tag handle suffix :: .anchor name :: rest =>
    (fullTag? handles handle suffix).map fun tag => (⟨some name, some tag⟩, rest)
  | .tag handle suffix :: rest =>
    (fullTag? handles handle suffix).map fun tag => (⟨none, some tag⟩, rest)
  | rest => some ({}, rest)

/-! ## Nodes -/

/-- Where a node stands. -/
inductive Context where
  /-- Inside of flow brackets, where block collections cannot begin. -/
  | flow
  /-- An entry of a block sequence, or the root. -/
  | block
  /-- A key or a value of a block mapping, where a sequence may stand without indentation. -/
  | entry
deriving DecidableEq

/-- Whether the tokens go on with one of the given tokens. -/
def atAny (stops : List Token) : List Token → Bool
  | [] => false
  | t :: _ => stops.contains t

/-- The tokens that leave the entry of a block sequence empty. -/
def emptyEntryStops : List Token := [.blockEntry, .blockEnd]

/-- The tokens that leave the entry of a sequence without indentation empty. -/
def emptyIndentlessStops : List Token := [.blockEntry, .key, .value, .blockEnd]

/-- The tokens that leave a key or a value of a block mapping empty. -/
def emptyPartStops : List Token := [.key, .value, .blockEnd]

mutual

/-- Reads a node.  Of three steps in a row one takes a token, so three times the number of tokens
bounds the number of steps. -/
def nodeFrom? (handles : Handles) : (steps : Nat) → Context → List Token →
    Option (Node String × List Token)
  | 0, _, _ => none
  | steps + 1, context, tokens =>
    match tokens with
    | .reference name :: rest => some (.reference name, rest)
    | tokens => do
      let (given, tokens) ← takeProperties? handles tokens
      match tokens with
      | .scalar text style :: rest => some (.scalar given.anchor given.tag text style, rest)
      | .openSequence :: rest => do
        let (items, rest) ← flowItems? handles steps true [] rest
        return (.sequence given.anchor items, rest)
      | .openMapping :: rest => do
        let (entries, rest) ← flowEntries? handles steps true [] rest
        return (.mapping given.anchor entries, rest)
      | .blockEntry :: rest =>
        if context = .entry then do
          let (items, rest) ← indentlessItems? handles steps [] (.blockEntry :: rest)
          return (.sequence given.anchor items, rest)
        else if given.isGiven then
          some (.scalar given.anchor given.tag "" .plain, .blockEntry :: rest)
        else none
      | .blockSequence :: rest =>
        if context ≠ .flow then do
          let (items, rest) ← blockItems? handles steps [] rest
          return (.sequence given.anchor items, rest)
        else if given.isGiven then
          some (.scalar given.anchor given.tag "" .plain, .blockSequence :: rest)
        else none
      | .blockMapping :: rest =>
        if context ≠ .flow then do
          let (entries, rest) ← blockEntries? handles steps [] rest
          return (.mapping given.anchor entries, rest)
        else if given.isGiven then
          some (.scalar given.anchor given.tag "" .plain, .blockMapping :: rest)
        else none
      | rest =>
        if given.isGiven then some (.scalar given.anchor given.tag "" .plain, rest) else none

/-- Reads a node, unless one of the given tokens comes first. -/
def nodeUnless? (handles : Handles) : (steps : Nat) → Context → (stops : List Token) →
    List Token → Option (Node String × List Token)
  | 0, _, _, _ => none
  | steps + 1, context, stops, tokens =>
    if atAny stops tokens then some (emptyScalar, tokens)
    else nodeFrom? handles steps context tokens

/-- Reads the items of a block sequence. -/
def blockItems? (handles : Handles) : (steps : Nat) → (items : List (Node String)) →
    List Token → Option (List (Node String) × List Token)
  | steps + 1, items, .blockEntry :: rest => do
    let (item, rest) ← nodeUnless? handles steps .block emptyEntryStops rest
    blockItems? handles steps (item :: items) rest
  | _ + 1, items, .blockEnd :: rest => some (items.reverse, rest)
  | _, _, _ => none

/-- Reads the items of a sequence without indentation. -/
def indentlessItems? (handles : Handles) : (steps : Nat) → (items : List (Node String)) →
    List Token → Option (List (Node String) × List Token)
  | 0, _, _ => none
  | steps + 1, items, .blockEntry :: rest => do
    let (item, rest) ← nodeUnless? handles steps .block emptyIndentlessStops rest
    indentlessItems? handles steps (item :: items) rest
  | _ + 1, items, rest => some (items.reverse, rest)

/-- Reads the entries of a block mapping. -/
def blockEntries? (handles : Handles) : (steps : Nat) →
    (entries : List (Node String × Node String)) → List Token →
    Option (List (Node String × Node String) × List Token)
  | steps + 1, entries, .key :: rest => do
    let (key, rest) ← nodeUnless? handles steps .entry emptyPartStops rest
    match rest with
    | .value :: rest => do
      let (value, rest) ← nodeUnless? handles steps .entry emptyPartStops rest
      blockEntries? handles steps ((key, value) :: entries) rest
    | rest => blockEntries? handles steps ((key, emptyScalar) :: entries) rest
  | _ + 1, entries, .blockEnd :: rest => some (entries.reverse, rest)
  | _, _, _ => none

/-- Reads the items of a flow sequence. -/
def flowItems? (handles : Handles) : (steps : Nat) → (isFirst : Bool) →
    (items : List (Node String)) → List Token → Option (List (Node String) × List Token)
  | 0, _, _, _ => none
  | _ + 1, _, items, .closeSequence :: rest => some (items.reverse, rest)
  | steps + 1, true, items, tokens => flowItem? handles steps items tokens
  | steps + 1, false, items, .flowEntry :: rest => flowItem? handles steps items rest
  | _ + 1, false, _, _ => none

/-- Reads an item of a flow sequence and those behind it.  A key without brackets makes a mapping
of one entry. -/
def flowItem? (handles : Handles) : (steps : Nat) → (items : List (Node String)) →
    List Token → Option (List (Node String) × List Token)
  | 0, _, _ => none
  | _ + 1, items, .closeSequence :: rest => some (items.reverse, rest)
  | steps + 1, items, .key :: rest => do
    let (key, rest) ←
      if atAny [.value, .flowEntry, .closeSequence] rest then some (emptyScalar, rest.drop 1)
      else nodeFrom? handles steps .flow rest
    match rest with
    | .value :: rest => do
      let (value, rest) ← nodeUnless? handles steps .flow [.flowEntry, .closeSequence] rest
      flowItems? handles steps false (.mapping none [(key, value)] :: items) rest
    | rest => flowItems? handles steps false (.mapping none [(key, emptyScalar)] :: items) rest
  | steps + 1, items, tokens => do
    let (item, rest) ← nodeFrom? handles steps .flow tokens
    flowItems? handles steps false (item :: items) rest

/-- Reads the entries of a flow mapping. -/
def flowEntries? (handles : Handles) : (steps : Nat) → (isFirst : Bool) →
    (entries : List (Node String × Node String)) → List Token →
    Option (List (Node String × Node String) × List Token)
  | 0, _, _, _ => none
  | _ + 1, _, entries, .closeMapping :: rest => some (entries.reverse, rest)
  | steps + 1, true, entries, tokens => flowPair? handles steps entries tokens
  | steps + 1, false, entries, .flowEntry :: rest => flowPair? handles steps entries rest
  | _ + 1, false, _, _ => none

/-- Reads an entry of a flow mapping and those behind it.  A node without a key's indicator is a
key without value. -/
def flowPair? (handles : Handles) : (steps : Nat) →
    (entries : List (Node String × Node String)) → List Token →
    Option (List (Node String × Node String) × List Token)
  | 0, _, _ => none
  | _ + 1, entries, .closeMapping :: rest => some (entries.reverse, rest)
  | steps + 1, entries, .key :: rest => do
    let (key, rest) ←
      nodeUnless? handles steps .flow [.value, .flowEntry, .closeMapping] rest
    match rest with
    | .value :: rest => do
      let (value, rest) ← nodeUnless? handles steps .flow [.flowEntry, .closeMapping] rest
      flowEntries? handles steps false ((key, value) :: entries) rest
    | rest => flowEntries? handles steps false ((key, emptyScalar) :: entries) rest
  | steps + 1, entries, tokens => do
    let (key, rest) ← nodeFrom? handles steps .flow tokens
    flowEntries? handles steps false ((key, emptyScalar) :: entries) rest

end

/-! ## Documents -/

/-- The directives in front of a document. -/
structure Directives where
  hasVersion : Bool := false
  handles : Handles := []

/-- Takes the directives in front of a document.  A version or a handle is given once, and the
version is 1.1 or 1.2. -/
def takeDirectives? (given : Directives) : List Token → Option (Directives × List Token)
  | .version major minor :: rest =>
    if given.hasVersion || major ≠ 1 || (minor ≠ 1 && minor ≠ 2) then none
    else takeDirectives? { given with hasVersion := true } rest
  | .tagHandle handle expansion :: rest =>
    if (given.handles.lookup handle).isSome then none
    else takeDirectives? { given with handles := given.handles ++ [(handle, expansion)] } rest
  | rest => some (given, rest)

/-- Whether a document behind its mark has no content. -/
def atDocumentEnd : List Token → Bool
  | [] => true
  | .documentStart :: _ => true
  | .documentEnd :: _ => true
  | .version _ _ :: _ => true
  | .tagHandle _ _ :: _ => true
  | _ => false

/-- Reads a document whose directives are known. -/
def rootFrom? (handles : Handles) (context : Context) (tokens : List Token) :
    Option (Node String × List Token) :=
  nodeFrom? (handles ++ standardHandles) (3 * tokens.length + 3) context tokens

/-- Reads the first document. -/
def firstDocument? (tokens : List Token) : Option (Node String × List Token) :=
  match tokens with
  | [] => some (emptyScalar, [])
  | tokens => do
    let (given, rest) ← takeDirectives? {} tokens
    match rest with
    | .documentStart :: rest =>
      if atDocumentEnd rest then some (emptyScalar, rest)
      else rootFrom? given.handles .block rest
    | rest =>
      if given.hasVersion || !given.handles.isEmpty then none
      else rootFrom? [] .block rest

/-- Reads the only document; text without any document counts as an empty scalar. -/
def Node.ofTokens? (tokens : List Token) : Option (Node String) := do
  let (root, rest) ← firstDocument? tokens
  if rest.all (· = .documentEnd) then some root else none

end Yaml
end KeywordAudit
