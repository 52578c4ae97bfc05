import Akio.Lib.Chain

/-!
# The skip list of `skiplist.c`

The state is the list record and the nodes it has allocated. What a key holds is only seen by `compare`,
so keys are of any type. The answer of `_random_level` is an argument of the insertion, and a loop over
levels runs on the number of levels that are left.
-/

namespace Akio.Skiplist

def SKIPLIST_MAXLEVEL : Nat := 32

structure skiplist_node (K V : Type) where
  key : Option K
  value : Option V
  /-- The pointers of the node's own levels. -/
  forward : List Ptr

structure skiplist (K V : Type) where
  level : Nat
  length : Nat
  compare : K → K → Int
  header : Ptr
  nodes : Store (skiplist_node K V)

variable {K V : Type}

/-- The pointers of the new node are not set yet. -/
def create_node (malloc : Bool) (nodes : Store (skiplist_node K V)) (level : Nat) (key : Option K)
    (value : Option V) : Ptr × Store (skiplist_node K V) :=
  if malloc then
    let (node, nodes) := nodes.alloc { key, value, forward := List.replicate level none }
    (some node, nodes)
  else (none, nodes)

/-- `malloc` and `malloc_header` are the answers for the list record and for the header. -/
def skiplist_new (malloc malloc_header : Bool) (compare : K → K → Int) : Outcome (Option (skiplist K V)) := do
  if !malloc then return none
  let (header, nodes) := create_node malloc_header .empty SKIPLIST_MAXLEVEL none none
  let nodes ← nodes.modify header fun n => { n with forward := List.replicate SKIPLIST_MAXLEVEL none }
  return some { level := 1, length := 0, compare, header, nodes }

def skiplist_length (list : Option (skiplist K V)) : Nat :=
  match list with
  | none => 0
  | some list => list.length

/-- `x->forward[i]` -/
def getForward (nodes : Store (skiplist_node K V)) (x : Ptr) (i : Nat) : Outcome Ptr := do
  let node ← nodes.read x
  Outcome.ofOption node.forward[i]?

/-- `x->forward[i] = p` -/
def setForward (nodes : Store (skiplist_node K V)) (x : Ptr) (i : Nat) (p : Ptr) :
    Outcome (Store (skiplist_node K V)) := do
  let node ← nodes.read x
  if i < node.forward.length then
    nodes.modify x fun n => { n with forward := n.forward.set i p }
  else .fault

/-- `list->compare(x->key, key)` -/
def compareNode (list : skiplist K V) (x : Ptr) (key : K) : Outcome Int := do
  let node ← list.nodes.read x
  let k ← Outcome.ofOption node.key
  return list.compare k key

/-- The `while` loop on one level of the search. -/
def advance (list : skiplist K V) (key : K) (i : Nat) : Nat → Ptr → Outcome Ptr
  | 0, _ => .running
  | fuel + 1, x => do
    let next ← getForward list.nodes x i
    if next = none then return x
    let c ← compareNode list next key
    if c < 0 then advance list key i fuel next else return x

/-- The `for` loop of the search, on the levels below `i`. It puts `update[i]` before the `update` of the
levels above. -/
def descend (list : skiplist K V) (key : K) (fuel : Nat) : Nat → Ptr → List Ptr → Outcome (Ptr × List Ptr)
  | 0, x, update => return (x, update)
  | i + 1, x, update => do
    let x ← advance list key i fuel x
    descend list key fuel i x (x :: update)

/-- `x && (list->compare(x->key, key) == 0)` -/
def found (list : skiplist K V) (x : Ptr) (key : K) : Outcome Bool := do
  if x = none then return false
  let c ← compareNode list x key
  return c = 0

/-- The loop that links a new node `x` into its levels, from `i` on. -/
def splice (x : Ptr) (update : List Ptr) :
    Nat → Nat → Store (skiplist_node K V) → Outcome (Store (skiplist_node K V))
  | 0, _, nodes => return nodes
  | n + 1, i, nodes => do
    let u ← Outcome.ofOption update[i]?
    let next ← getForward nodes u i
    let nodes ← setForward nodes x i next
    let nodes ← setForward nodes u i x
    splice x update n (i + 1) nodes

def skiplist_insert (fuel : Nat) (malloc : Bool) (random_level : Nat) (list : Option (skiplist K V))
    (key : Option K) (value : Option V) : Outcome (Option (skiplist K V) × Int) := do
  let some list := list | return (none, 0)
  let some key := key | return (some list, 0)
  if value = none then return (some list, 0)
  let (x, update) ← descend list key fuel list.level list.header []
  let next ← getForward list.nodes x 0
  if ← found list next key then
    let nodes ← list.nodes.modify next fun n => { n with value }
    return (some { list with nodes }, 1)
  let level := random_level
  let (update, list) :=
    if level > list.level then
      (update ++ List.replicate (level - list.level) list.header, { list with level })
    else (update, list)
  let (x, nodes) := create_node malloc list.nodes level (some key) value
  let nodes ← splice x update level 0 nodes
  return (some { list with nodes, length := list.length + 1 }, 1)

def skiplist_search (fuel : Nat) (list : Option (skiplist K V)) (key : Option K) : Outcome (Option V) := do
  let some list := list | return none
  let some key := key | return none
  let (x, _) ← descend list key fuel list.level list.header []
  let x ← getForward list.nodes x 0
  if ← found list x key then
    let node ← list.nodes.read x
    return node.value
  else return none

/-- The loop that unlinks the node `x` from its levels, from `i` on. -/
def unlink (x : Ptr) (update : List Ptr) :
    Nat → Nat → Store (skiplist_node K V) → Outcome (Store (skiplist_node K V))
  | 0, _, nodes => return nodes
  | n + 1, i, nodes => do
    let u ← Outcome.ofOption update[i]?
    let next ← getForward nodes u i
    if next ≠ x then return nodes
    let next ← getForward nodes x i
    let nodes ← setForward nodes u i next
    unlink x update n (i + 1) nodes

/-- The `while` loop that lowers `list->level`. -/
def shrink (nodes : Store (skiplist_node K V)) (header : Ptr) : Nat → Outcome Nat
  | 0 => return 0
  | level + 1 => do
    if level + 1 > 1 then
      let top ← getForward nodes header level
      if top = none then shrink nodes header level else return level + 1
    else return level + 1

def skiplist_delete (fuel : Nat) (list : Option (skiplist K V)) (key : Option K) :
    Outcome (Option (skiplist K V) × Option V) := do
  let some list := list | return (none, none)
  let some key := key | return (some list, none)
  let (x, update) ← descend list key fuel list.level list.header []
  let x ← getForward list.nodes x 0
  if ← found list x key then
    let nodes ← unlink x update list.level 0 list.nodes
    let node ← nodes.read x
    let oldvalue := node.value
    let nodes ← nodes.free x
    let level ← shrink nodes list.header list.level
    return (some { list with level, nodes, length := list.length - 1 }, oldvalue)
  else return (some list, none)

end Akio.Skiplist
