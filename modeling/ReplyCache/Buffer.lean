namespace ReplyCache

structure Buffer (α : Type u) where
  threshold : Nat
  /-- The oldest first. -/
  items : List α
  deriving DecidableEq

namespace Buffer

variable {α : Type u}

/-- An empty buffer. One item is enough for it if not more are asked for. -/
def ofThreshold (n : Nat) : Buffer α := ⟨max n 1, []⟩

instance : Inhabited (Buffer α) := ⟨ofThreshold 1⟩

def push (b : Buffer α) (a : α) : Buffer α := { b with items := b.items ++ [a] }

def size (b : Buffer α) : Nat := b.items.length

def isFull (b : Buffer α) : Bool := b.threshold ≤ b.size

def isEmpty (b : Buffer α) : Bool := b.items.isEmpty

def drain (b : Buffer α) : List α × Buffer α := (b.items, { b with items := [] })

end Buffer

end ReplyCache
