import Akio.Lib.Run
import Akio.Lib.Chain

/-!
# The doubly linked list of `linklist.c`

The state is the list record, the nodes it has allocated, and the values that `free_func` was
called on so far. A pointer to a node is the node's address.
-/

namespace Akio.Linklist

structure list_node (V : Type) where
  prev : Ptr
  next : Ptr
  value : V

structure linklist (V : Type) where
  head : Ptr
  tail : Ptr
  len : Nat
  /-- Whether `free_func` is non-NULL. -/
  free_func : Bool
  nodes : Store (list_node V)
  freed : List V

/-- What the operations that add or move a node return: the list or NULL. -/
inductive Answer where
  | list
  | null
deriving DecidableEq, Repr

variable {V : Type}

/-- `malloc` says whether the allocation of the list record succeeds. -/
def linklist_new (malloc : Bool) (func : Bool) : Option (linklist V) :=
  if malloc then
    some { head := none, tail := none, len := 0, free_func := func, nodes := .empty, freed := [] }
  else none

/-- `node->prev = p`, and the like for the other fields. -/
def setPrev (list : linklist V) (node p : Ptr) : Outcome (linklist V) := do
  let nodes ← list.nodes.modify node fun n => { n with prev := p }
  return { list with nodes }

def setNext (list : linklist V) (node p : Ptr) : Outcome (linklist V) := do
  let nodes ← list.nodes.modify node fun n => { n with next := p }
  return { list with nodes }

/-- `malloc(sizeof(*node))` followed by `node->value = value`. The two pointers are not set yet. -/
def newNode (list : linklist V) (value : V) : Ptr × linklist V :=
  let (node, nodes) := list.nodes.alloc { prev := none, next := none, value }
  (some node, { list with nodes })

def callFree (list : linklist V) (value : V) : linklist V :=
  if list.free_func then { list with freed := list.freed ++ [value] } else list

def linklist_add_head (malloc : Bool) (list : Option (linklist V)) (value : V) :
    Outcome (Option (linklist V) × Answer) := do
  let some list := list | return (none, .null)
  if !malloc then return (some list, .null)
  let (node, list) := newNode list value
  let list ←
    if list.len = 0 then do
      let list := { list with head := node, tail := node }
      let list ← setNext list node none
      setPrev list node none
    else do
      let list ← setPrev list node none
      let list ← setNext list node list.head
      let list ← setPrev list list.head node
      pure { list with head := node }
  return (some { list with len := list.len + 1 }, .list)

def linklist_add_tail (malloc : Bool) (list : Option (linklist V)) (value : V) :
    Outcome (Option (linklist V) × Answer) := do
  let some list := list | return (none, .null)
  if !malloc then return (some list, .null)
  let (node, list) := newNode list value
  let list ←
    if list.len = 0 then do
      let list := { list with head := node, tail := node }
      let list ← setNext list node none
      setPrev list node none
    else do
      let list ← setPrev list node list.tail
      let list ← setNext list node none
      let list ← setNext list list.tail node
      pure { list with tail := node }
  return (some { list with len := list.len + 1 }, .list)

def linklist_insert_node (malloc : Bool) (list : Option (linklist V)) (node : Ptr) (value : V)
    (after : Int) : Outcome (Option (linklist V) × Answer) := do
  let some list := list | return (none, .null)
  if node = none then return (some list, .null)
  if !malloc then return (some list, .null)
  let (new_node, list) := newNode list value
  let list ←
    if after ≠ 0 then do
      let list ← setPrev list new_node node
      let list ← setNext list new_node (← list.nodes.read node).next
      pure (if list.tail = node then { list with tail := new_node } else list)
    else do
      let list ← setNext list new_node node
      let list ← setPrev list new_node (← list.nodes.read node).prev
      pure (if list.head = node then { list with head := new_node } else list)
  let new ← list.nodes.read new_node
  let list ← if new.prev ≠ none then setNext list new.prev new_node else pure list
  let new ← list.nodes.read new_node
  let list ← if new.next ≠ none then setPrev list new.next new_node else pure list
  return (some { list with len := list.len + 1 }, .list)

/-- The first half of `linklist_move_node`: the neighbours of `src` are linked to each other. -/
def linklist_move_node.unlink (list : linklist V) (src : Ptr) : Outcome (linklist V) := do
  let s ← list.nodes.read src
  let list ←
    if s.prev ≠ none then setNext list s.prev s.next else pure { list with head := s.next }
  let s ← list.nodes.read src
  if s.next ≠ none then setPrev list s.next s.prev else pure { list with tail := s.prev }

/-- The second half. Only `src` and the list record are written, not the new neighbours of `src`. -/
def linklist_move_node.relink (list : linklist V) (src dst : Ptr) (after : Int) :
    Outcome (linklist V) := do
  if after ≠ 0 then do
    let list ← setPrev list src dst
    let list ← setNext list src (← list.nodes.read dst).next
    pure (if list.tail = dst then { list with tail := src } else list)
  else do
    let list ← setNext list src dst
    let list ← setPrev list src (← list.nodes.read dst).prev
    pure (if list.head = dst then { list with head := src } else list)

def linklist_move_node (list : Option (linklist V)) (src dst : Ptr) (after : Int) :
    Outcome (Option (linklist V) × Answer) := do
  let some list := list | return (none, .null)
  if src = none ∨ dst = none ∨ src = dst then return (some list, .null)
  let list ← linklist_move_node.unlink list src
  let list ← linklist_move_node.relink list src dst after
  return (some list, .list)

def linklist_delete_node (list : linklist V) (node : Ptr) : Outcome (linklist V) := do
  let n ← list.nodes.read node
  let list ←
    if n.prev ≠ none then setNext list n.prev n.next else pure { list with head := n.next }
  let n ← list.nodes.read node
  let list ←
    if n.next ≠ none then setPrev list n.next n.prev else pure { list with tail := n.prev }
  let list := callFree list (← list.nodes.read node).value
  let nodes ← list.nodes.free node
  return { list with nodes, len := list.len - 1 }

/-- The `while (len--)` loop of `linklist_free`. -/
def linklist_free.loop : Nat → Ptr → linklist V → Outcome (linklist V)
  | 0, _, list => return list
  | len + 1, current, list => do
    let n ← list.nodes.read current
    let list := callFree list n.value
    let nodes ← list.nodes.free current
    loop len n.next { list with nodes }

/-- Frees each node. The list record itself is gone afterwards: what is left of the state is the
memory and the calls of `free_func`. -/
def linklist_free (list : Option (linklist V)) : Outcome (Option (linklist V)) := do
  let some list := list | return none
  let list ← linklist_free.loop list.len list.head list
  return some list

end Akio.Linklist
