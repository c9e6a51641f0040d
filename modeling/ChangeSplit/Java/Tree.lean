import ChangeSplit.Java.Kind

/-! Syntax trees over the bytes of a source. A leaf of punctuation is a bare token. Every other
node has a kind, the role it plays in its parent, and the span of bytes from its first to its
last token. -/

namespace ChangeSplit.Java

/-- A syntax tree. A `token` is a keyword or mark that has no kind of its own. The span of a tree
is the half-open range of bytes from `start` to `stop`. -/
inductive Tree where
  | token (text : String) (start stop : Nat)
  | node (role : Option Role) (kind : Kind) (start stop : Nat) (children : List Tree)
deriving Inhabited

namespace Tree

/-- The first byte of a tree. -/
def start : Tree → Nat
  | token _ start _ => start
  | node _ _ start _ _ => start

/-- The byte after the last one of a tree. -/
def stop : Tree → Nat
  | token _ _ stop => stop
  | node _ _ _ stop _ => stop

/-- The kind of a node. Bare tokens have none. -/
def kind? : Tree → Option Kind
  | token .. => none
  | node _ kind .. => some kind

/-- The role of a node in its parent. -/
def role? : Tree → Option Role
  | token .. => none
  | node role .. => role

/-- The trees right below a tree, comments and bare tokens included. -/
def children : Tree → List Tree
  | token .. => []
  | node _ _ _ _ children => children

/-- Whether a tree is a node with a kind of its own. -/
def isNamed (t : Tree) : Bool := t.kind?.isSome

/-- Whether the kind of a tree passes a test. Bare tokens pass none. -/
def kindIs (t : Tree) (test : Kind → Bool) : Bool := t.kind?.any test

/-- Whether a tree is a node of the given kind. -/
def isA (t : Tree) (kind : Kind) : Bool := t.kind? = some kind

/-- Whether a tree is a comment. -/
def isComment (t : Tree) : Bool := t.kindIs Kind.isComment

/-- The nodes right below a tree, comments included. -/
def namedChildren (t : Tree) : List Tree := t.children.filter isNamed

/-- The nodes right below a tree that play the given role in it. -/
def childrenAs (t : Tree) (role : Role) : List Tree :=
  t.children.filter fun c => c.role? = some role

/-- The first node right below a tree that plays the given role in it. -/
def childAs? (t : Tree) (role : Role) : Option Tree :=
  t.children.find? fun c => c.role? = some role

/-- Let a node play a role. Bare tokens play none. -/
def withRole (role : Role) : Tree → Tree
  | token text start stop => token text start stop
  | node _ kind start stop children => node (some role) kind start stop children

/-- The node over a sequence of trees, which spans them all. There is none over nothing. -/
def over? (kind : Kind) (children : List Tree) : Option Tree :=
  match children.head?, children.getLast? with
  | some first, some last => some (node none kind first.start last.stop children)
  | _, _ => none

/-- Whether two trees are of one kind and span the same bytes. -/
def same (a b : Tree) : Bool :=
  a.kind? = b.kind? && a.start = b.start && a.stop = b.stop

mutual

/-- Put a comment into a tree that spans it, below the innermost node that is still open where
the comment stands. -/
def insert (comment : Tree) : Tree → Tree
  | token text start stop => token text start stop
  | node role kind start stop children =>
    node role kind start stop (insertAmong comment children)

/-- Put a comment among trees that are in order of position. -/
def insertAmong (comment : Tree) : List Tree → List Tree
  | [] => [comment]
  | t :: rest =>
    if t.stop ≤ comment.start then t :: insertAmong comment rest
    else if t.start < comment.start then insert comment t :: rest
    else comment :: t :: rest

end

mutual

/-- A tree as nested lists in parentheses. Bare tokens are left out, and a node that plays a role
has the role's name in front. -/
def render : Tree → String
  | token .. => ""
  | node _ kind _ _ children => "(" ++ kind.name ++ renderAll children ++ ")"

/-- The nodes among some trees, each after a space. -/
def renderAll : List Tree → String
  | [] => ""
  | token .. :: rest => renderAll rest
  | node role kind start stop children :: rest =>
    let label := match role with
      | some role => role.label ++ ": "
      | none => ""
    " " ++ label ++ render (node role kind start stop children) ++ renderAll rest

end

end Tree

end ChangeSplit.Java
