import KeywordAudit.Yaml.Node

/-!
# Anchors

Anchors are numbered in the order of the text.  An anchor takes the number of names that are known
before it, so a name that is used again shares the number of what comes next; a reference has the
number that its name has at that place, and stands for the last node of that number.
-/

namespace KeywordAudit
namespace Yaml

/-- The names of the anchors so far, each once, with their numbers. -/
abbrev AnchorNames := List (String × Nat)

/-- Gives a name its number, in place of the one that it had. -/
def AnchorNames.declare (names : AnchorNames) (name : String) : AnchorNames × Nat :=
  let number := names.length
  if (names.lookup name).isSome then
    (names.map fun (other, n) => (other, if other = name then number else n), number)
  else ((name, number) :: names, number)

/-- Numbers the anchor of a node, if it has one. -/
def AnchorNames.declare? (names : AnchorNames) : Option String → AnchorNames × Option Nat
  | none => (names, none)
  | some name =>
    let (names, number) := names.declare name
    (names, some number)

mutual

/-- Numbers the anchors and references of a node; a name that is not known is refused. -/
def numberNode? (names : AnchorNames) : Node String → Option (Node Nat × AnchorNames)
  | .reference name => (names.lookup name).map fun n => (.reference n, names)
  | .scalar anchor tag text style =>
    let (names, anchor) := names.declare? anchor
    some (.scalar anchor tag text style, names)
  | .sequence anchor items =>
    let (names, anchor) := names.declare? anchor
    (numberItems? names items).map fun (items, names) => (.sequence anchor items, names)
  | .mapping anchor entries =>
    let (names, anchor) := names.declare? anchor
    (numberEntries? names entries).map fun (entries, names) => (.mapping anchor entries, names)

/-- Numbers the items of a sequence. -/
def numberItems? (names : AnchorNames) : List (Node String) →
    Option (List (Node Nat) × AnchorNames)
  | [] => some ([], names)
  | item :: items => do
    let (item, names) ← numberNode? names item
    let (items, names) ← numberItems? names items
    return (item :: items, names)

/-- Numbers the entries of a mapping. -/
def numberEntries? (names : AnchorNames) : List (Node String × Node String) →
    Option (List (Node Nat × Node Nat) × AnchorNames)
  | [] => some ([], names)
  | (key, value) :: entries => do
    let (key, names) ← numberNode? names key
    let (value, names) ← numberNode? names value
    let (entries, names) ← numberEntries? names entries
    return ((key, value) :: entries, names)

end

/-- The number that a node carries, with the node. -/
def ownAnchor (anchor : Option Nat) (node : Node Nat) : List (Nat × Node Nat) :=
  match anchor with
  | none => []
  | some n => [(n, node)]

mutual

/-- The nodes that carry anchors, in the order of the text. -/
def anchoredNodes : Node Nat → List (Nat × Node Nat)
  | .reference _ => []
  | .scalar anchor tag text style => ownAnchor anchor (.scalar anchor tag text style)
  | .sequence anchor items => ownAnchor anchor (.sequence anchor items) ++ anchoredItems items
  | .mapping anchor entries => ownAnchor anchor (.mapping anchor entries) ++ anchoredEntries entries

/-- The nodes among the items of a sequence that carry anchors. -/
def anchoredItems : List (Node Nat) → List (Nat × Node Nat)
  | [] => []
  | item :: items => anchoredNodes item ++ anchoredItems items

/-- The nodes among the entries of a mapping that carry anchors. -/
def anchoredEntries : List (Node Nat × Node Nat) → List (Nat × Node Nat)
  | [] => []
  | (key, value) :: entries => anchoredNodes key ++ anchoredNodes value ++ anchoredEntries entries

end

mutual

/-- The number of marks in which a node is told: one for a scalar or a reference, and for a
collection one for each of its ends and those of its parts. -/
def markCount : Node Nat → Nat
  | .reference _ => 1
  | .scalar _ _ _ _ => 1
  | .sequence _ items => itemMarkCount items + 2
  | .mapping _ entries => entryMarkCount entries + 2

/-- The number of marks of the items of a sequence. -/
def itemMarkCount : List (Node Nat) → Nat
  | [] => 0
  | item :: items => markCount item + itemMarkCount items

/-- The number of marks of the entries of a mapping. -/
def entryMarkCount : List (Node Nat × Node Nat) → Nat
  | [] => 0
  | (key, value) :: entries => markCount key + markCount value + entryMarkCount entries

end

/-- A document: its root, and the nodes that carry anchors, last one first. -/
structure Document where
  root : Node Nat
  anchored : List (Nat × Node Nat)

namespace Document

/-- Numbers the anchors of a document. -/
def ofNode? (root : Node String) : Option Document :=
  (numberNode? [] root).map fun (root, _) => ⟨root, (anchoredNodes root).reverse⟩

/-- The number of references that may be followed while the document is read: a hundred for each
mark, so that a short text cannot stand for an endless one. -/
def referenceLimit (document : Document) : Nat := 100 * markCount document.root

/-- The node itself, or the one that a reference stands for.  The state is the number of
references that may still be followed. -/
def resolve (document : Document) : Node Nat → StateT Nat Option (Node Nat)
  | .reference n => fun
    | 0 => none
    | left + 1 => (document.anchored.lookup n).map fun node => (node, left)
  | node => pure node

end Document

end Yaml
end KeywordAudit
