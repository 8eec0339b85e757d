import Flowchart.Accumulator

/-! Tokens and token trees. -/
namespace Flowchart

/-- A token: a label, and how it is resolved, which puts its units into an accumulator. -/
structure Token (σ : Type) where
  label : String
  resolve : Filling σ Outcome

/-- The place of a token in its tree. -/
abbrev TokenId := Nat

/-- A token with its links to others. -/
structure TokenSlot (τ : Type) where
  token : τ
  successor : Option TokenId := none
  children : List TokenId := []
deriving DecidableEq, Inhabited

/-- Tokens linked by successors and children. Nothing keeps the links from
going round in circles or meeting again. -/
structure TokenTree (τ : Type) where
  slots : Array (TokenSlot τ) := #[]
  root : Option TokenId := none
deriving DecidableEq, Inhabited

namespace TokenTree

variable {τ υ : Type}

def size (t : TokenTree τ) : Nat := t.slots.size

def slot (t : TokenTree τ) (id : TokenId) : Except Fault (TokenSlot τ) :=
  match t.slots[id]? with
  | some s => return s
  | none => throw (.unknownToken id)

def start (t : TokenTree τ) : Except Fault TokenId :=
  match t.root with
  | some id => return id
  | none => throw .missingRoot

/-- Add a token without links. The first one becomes the root. -/
def push (t : TokenTree τ) (token : τ) : TokenTree τ :=
  { slots := t.slots.push { token }, root := some (t.root.getD t.slots.size) }

def setRoot (t : TokenTree τ) (id : TokenId) : Except Fault (TokenTree τ) := do
  let _ ← t.slot id
  return { t with root := some id }

/-- The tree in which `next` is the successor of `id`, if there is a token there. -/
def linkSuccessor (t : TokenTree τ) (id next : TokenId) : TokenTree τ :=
  { t with slots := t.slots.modify id fun s => { s with successor := some next } }

/-- The tree in which `child` is the last child of `parent`, if there is a token there. -/
def linkChild (t : TokenTree τ) (parent child : TokenId) : TokenTree τ :=
  { t with slots := t.slots.modify parent fun s => { s with children := s.children ++ [child] } }

/-- Link `next` as the successor of `id`, in place of the one before. -/
def setSuccessor (t : TokenTree τ) (id next : TokenId) : Except Fault (TokenTree τ) := do
  let _ ← t.slot next
  let _ ← t.slot id
  return t.linkSuccessor id next

def addChild (t : TokenTree τ) (parent child : TokenId) : Except Fault (TokenTree τ) := do
  let _ ← t.slot child
  let _ ← t.slot parent
  return t.linkChild parent child

/-- Add tokens, each as the successor of the one before, the first as that of a given one. -/
def pushChain (t : TokenTree τ) (previous : Option TokenId) : List τ → TokenTree τ
  | [] => t
  | token :: rest =>
    let id := t.size
    let t := t.push token
    match previous with
    | none => t.pushChain (some id) rest
    | some p => (t.linkSuccessor p id).pushChain (some id) rest

/-- The same links between other tokens. -/
def map (f : τ → υ) (t : TokenTree τ) : TokenTree υ :=
  { slots := t.slots.map fun s => { s with token := f s.token }, root := t.root }

end TokenTree

end Flowchart
