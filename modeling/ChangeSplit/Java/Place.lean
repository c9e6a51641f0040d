import ChangeSplit.Java.Source

/-! Places in a syntax tree: a node with the nodes above it. From a place one can look up, to the
declarations that enclose it, and down, to the declarations and nodes inside it. -/

namespace ChangeSplit.Java

/-- A node together with the nodes above it, innermost first. -/
structure Place where
  node : Tree
  above : List Tree := []

namespace Place

/-- The kind test of the node at a place. -/
def kindIs (p : Place) (test : Kind → Bool) : Bool := p.node.kindIs test

/-- The nodes right below a place, comments included. -/
def namedChildren (p : Place) : List Place :=
  p.node.namedChildren.map fun c => ⟨c, p.node :: p.above⟩

/-- The place of a node right below this one. -/
def descend (p : Place) (child : Tree) : Place := ⟨child, p.node :: p.above⟩

/-- The first node right below a place that plays the given role in it. -/
def childAs? (p : Place) (role : Role) : Option Place := (p.node.childAs? role).map p.descend

/-- The place itself and the places above it, innermost first. -/
def chain (p : Place) : List Place := go p.node p.above
where
  go (node : Tree) : List Tree → List Place
    | [] => [⟨node, []⟩]
    | parent :: above => ⟨node, parent :: above⟩ :: go parent above

/-- Whether a node below the given ones declares a type, or a member of a type, that can be
named from outside: each declaration around it stands in the body of a type, up to the source
itself. Members of anonymous classes and of classes inside methods cannot be named. -/
def isNamedBelow (node : Tree) : List Tree → Bool
  | [] => false
  | [parent] => parent.isA .program && node.kindIs Kind.isTypeDeclaration
  | parent :: upper :: above =>
    node.kindIs Kind.isDeclaration &&
      (if parent.isA .program then node.kindIs Kind.isTypeDeclaration
      else if parent.isA .enumBodyDeclarations then
        match above with
        | owner :: rest =>
          upper.kindIs Kind.isTypeBody && owner.kindIs Kind.isTypeDeclaration &&
            isNamedBelow owner rest
        | [] => false
      else
        parent.kindIs Kind.isTypeBody && upper.kindIs Kind.isTypeDeclaration &&
          isNamedBelow upper above)

/-- Whether a place is a declaration that can be named from outside. -/
def isNamedMember (p : Place) : Bool := isNamedBelow p.node p.above

/-- The named declarations that enclose a place, itself included, innermost first. -/
def enclosingMembers (p : Place) : List Place := p.chain.filter isNamedMember

/-- The named types that enclose a place, itself included, innermost first. -/
def enclosingTypes (p : Place) : List Place :=
  p.enclosingMembers.filter (·.kindIs Kind.isTypeDeclaration)

/-- What a change of a place is put down to: the nearest import, statement or named declaration
at or above it. -/
def anchor? (p : Place) : Option Place :=
  p.chain.find? fun q =>
    q.node.isA .importDeclaration || q.kindIs Kind.isStatement || q.isNamedMember

/-- The declarations in the body of a type. Those of an enumeration stand behind its constants,
in a part of their own. -/
def members (p : Place) : List Place :=
  match p.childAs? .body with
  | none => []
  | some body =>
    body.namedChildren.flatMap fun c =>
      if c.node.isA .enumBodyDeclarations then c.namedChildren.filter (·.kindIs Kind.isDeclaration)
      else if c.kindIs Kind.isDeclaration then [c]
      else []

/-- A type and the types declared inside it, outer ones first. The depth bounds the nesting. -/
def typesFrom : Nat → Place → List Place
  | 0, _ => []
  | depth + 1, p =>
    p :: (p.members.filter (·.kindIs Kind.isTypeDeclaration)).flatMap (typesFrom depth)

mutual

/-- The places below a node, each before those inside it. -/
def below (above : List Tree) : Tree → List Place
  | .token .. => []
  | .node role kind start stop children =>
    belowAll (.node role kind start stop children :: above) children

/-- The named ones among some nodes and the places below them. -/
def belowAll (above : List Tree) : List Tree → List Place
  | [] => []
  | t :: rest => (if t.isNamed then ⟨t, above⟩ :: below above t else []) ++ belowAll above rest

end

/-- A place and every place below it, each before those inside it. -/
def everything (p : Place) : List Place := p :: below p.above p.node

mutual

/-- The outermost nodes below a node that lie inside the bytes from `first` to `last`. Comments
are passed over. Only nodes that reach into those bytes are looked into. -/
def coveredBelow (first last : Nat) (above : List Tree) : Tree → List Place
  | .token .. => []
  | .node role kind start stop children =>
    coveredAmong first last (.node role kind start stop children :: above) children

/-- The outermost of some nodes and of the nodes below them that lie inside the given bytes. -/
def coveredAmong (first last : Nat) (above : List Tree) : List Tree → List Place
  | [] => []
  | t :: rest =>
    (if !t.isNamed || t.isComment then []
    else if first ≤ t.start && t.stop ≤ last then [⟨t, above⟩]
    else if t.start < last && t.stop > first then coveredBelow first last above t
    else []) ++ coveredAmong first last above rest

end

end Place

mutual

/-- The number of nodes on the longest way down from a tree. -/
def Tree.height : Tree → Nat
  | .token .. => 0
  | .node _ _ _ _ children => Tree.heightAll children + 1

/-- The greatest height among some trees. -/
def Tree.heightAll : List Tree → Nat
  | [] => 0
  | t :: rest => max t.height (Tree.heightAll rest)

end

namespace SourceUnit

/-- The place of the whole source. -/
def top (unit : SourceUnit) : Place := ⟨unit.root, []⟩

/-- The named types of a source in the order of the source. -/
def types (unit : SourceUnit) : List Place :=
  (unit.top.namedChildren.filter (·.kindIs Kind.isTypeDeclaration)).flatMap
    (Place.typesFrom unit.root.height)

/-- The full name of a type: the package, the types around it, and its own name. -/
def typeName (unit : SourceUnit) (p : Place) : String :=
  let names := (p.enclosingTypes.map fun t => unit.declaredName t.node).reverse
  let name := ".".intercalate names
  if unit.package = "" then name else unit.package ++ "." ++ name

/-- The full names of the types that enclose a place, innermost first. -/
def typesAround (unit : SourceUnit) (p : Place) : List String := p.enclosingTypes.map unit.typeName

/-- The outermost nodes that lie inside a range of bytes. Nothing lies inside an empty one. -/
def covered (unit : SourceUnit) (first last : Nat) : List Place :=
  if last ≤ first then [] else Place.coveredBelow first last [] unit.root

end SourceUnit

end ChangeSplit.Java
