import Cyntatic.Library.ColorTree
import Cyntatic.Library.Fuel

/-! # The red-black tree (`tree.c`)

The fields of the nodes are functions of the node's address. The loops that follow links have fuel, and following a
link of `NULL` has no result. -/

namespace Cyntatic
open Library

/-- An address (`uptr`); `NULL` is 0. -/
abbrev Ptr := BitVec 64

/-- The tree (`RbTreeBase`) and the memory of its nodes (`RbTreeNode`). The colour is in the low bit of `parent`. -/
structure RbTreeBase (α : Type) where
  root : Ptr
  compare : α → BitVec 32 → α → Int
  left : Ptr → Ptr
  right : Ptr → Ptr
  parent : Ptr → Ptr
  data : Ptr → α

/-- A place that holds a link: `&rbt->root`, or a child of a node. -/
inductive Link where
  | root
  | child (node : Ptr) (side : Side)
  deriving DecidableEq

/-- `rbtRed` and `rbtBlack`. -/
def rbtColor : Color → Ptr
  | .red => 0
  | .black => 1

namespace RbTreeBase
variable {α : Type} (rbt : RbTreeBase α)

/-! ### Links and colours -/

/-- `RbTree_parent` -/
def parentOf (node : Ptr) : Ptr := rbt.parent node &&& ~~~1

/-- `RbTree_is` -/
def is (node : Ptr) (color : Color) : Prop := rbt.parent node &&& 1 = rbtColor color

instance (node : Ptr) (color : Color) : Decidable (rbt.is node color) := inferInstanceAs (Decidable (_ = _))

/-- `RbTree_set_parent` -/
def setParent (node parent : Ptr) : RbTreeBase α :=
  { rbt with parent := Function.update rbt.parent node (rbt.parent node &&& 3 ||| parent) }

/-- `RbTree_set_parent_color_` -/
def setParentColor (node parent : Ptr) (color : Color) : RbTreeBase α :=
  { rbt with parent := Function.update rbt.parent node (parent ||| rbtColor color) }

/-- `node->left` or `node->right`. -/
def child (node : Ptr) : Side → Ptr
  | .left => rbt.left node
  | .right => rbt.right node

def setChild (node : Ptr) (side : Side) (v : Ptr) : RbTreeBase α :=
  match side with
  | .left => { rbt with left := Function.update rbt.left node v }
  | .right => { rbt with right := Function.update rbt.right node v }

/-- `*link` -/
def load : Link → Ptr
  | .root => rbt.root
  | .child node side => rbt.child node side

def store (link : Link) (v : Ptr) : RbTreeBase α :=
  match link with
  | .root => { rbt with root := v }
  | .child node side => rbt.setChild node side v

/-- What the caller does with the data of a new node. -/
def setData (node : Ptr) (v : α) : RbTreeBase α := { rbt with data := Function.update rbt.data node v }

/-- `RbTree_change_child` -/
def changeChild (old new parent : Ptr) : RbTreeBase α :=
  if parent ≠ 0 then
    if rbt.left parent = old then rbt.setChild parent .left new else rbt.setChild parent .right new
  else { rbt with root := new }

/-- `RbTree_link_node` -/
def linkNode (link : Link) (node parent : Ptr) : RbTreeBase α :=
  let rbt := { rbt with parent := Function.update rbt.parent node parent }
  let rbt := (rbt.setChild node .right 0).setChild node .left 0
  rbt.store link node

/-- `RbTree_rotate_set_parents` -/
def rotateSetParents (old new : Ptr) (color : Color) : RbTreeBase α :=
  let parent := rbt.parentOf old
  let rbt := { rbt with parent := Function.update rbt.parent new (rbt.parent old) }
  let rbt := rbt.setParentColor old new color
  rbt.changeChild old new parent

/-- `RbTree_init_node` -/
def initNode (node : Ptr) : RbTreeBase α :=
  let rbt := { rbt with parent := Function.update rbt.parent node (rbtColor .red) }
  let rbt := (rbt.setChild node .left 0).setChild node .right 0
  rbt.setParent node node

/-! ### Insertion -/

/-- `if (tmp) RbTree_set_parent_color(tmp, parent, Black)` -/
def blacken (tmp parent : Ptr) : RbTreeBase α :=
  if tmp ≠ 0 then rbt.setParentColor tmp parent .black else rbt

/-- The colour that the old parent gets in Case 2: `Black` on the left side, `Red` on the right. -/
def case2Color : Side → Color
  | .left => .black
  | .right => .red

/-- Case 2: the rotation at the parent. The results are the new parent and its child on the other side. -/
def insertCase2 (side : Side) (node parent : Ptr) : RbTreeBase α × Ptr × Ptr :=
  let tmp := rbt.child parent side.other
  if node = tmp then
    let tmp := rbt.child node side
    let rbt := (rbt.setChild parent side.other tmp).setChild node side parent
    let rbt := (rbt.blacken tmp parent).setParentColor parent node (case2Color side)
    (rbt, node, rbt.child node side.other)
  else (rbt, parent, tmp)

/-- Case 3: the rotation at the grandparent. -/
def insertCase3 (side : Side) (parent tmp gp : Ptr) : RbTreeBase α :=
  let rbt := (rbt.setChild gp side tmp).setChild parent side.other gp
  let rbt := rbt.blacken tmp gp
  rbt.rotateSetParents gp parent .red

/-- Case 2 and Case 3 below the child `parent` of `gp` on `side`. The two branches of the loop mirror each other. -/
def insertRotate (side : Side) (node parent gp : Ptr) : RbTreeBase α :=
  let (rbt, parent, tmp) := rbt.insertCase2 side node parent
  rbt.insertCase3 side parent tmp gp

/-- The loop of `RbTree_insert__`, whose callback does nothing. -/
def insertColor (rbt : RbTreeBase α) (node parent : Ptr) : Nat → Option (RbTreeBase α)
  | 0 => none
  | fuel + 1 =>
    if parent = 0 then some (rbt.setParentColor node 0 .black)
    else if rbt.is parent .black then some rbt
    else
      let gp := rbt.parentOf parent
      if gp = 0 then none
      else
        let side := if parent ≠ rbt.right gp then Side.left else .right
        let tmp := rbt.child gp side.other
        if tmp ≠ 0 ∧ rbt.is tmp .red then
          -- Case 1
          let rbt := (rbt.setParentColor tmp gp .black).setParentColor parent gp .black
          let parent := rbt.parentOf gp
          insertColor (rbt.setParentColor gp parent .red) gp parent fuel
        else some (rbt.insertRotate side node parent gp)

/-- A new node at a place (the end of `RbTree_add_` and `RbTree_find_or_add_`). -/
def insert (link : Link) (node parent : Ptr) (fuel : Nat) : Option (RbTreeBase α) :=
  let rbt := (rbt.initNode node).linkNode link node parent
  rbt.insertColor node (rbt.parentOf node) fuel

/-- The loop of `RbTree_add_`: the parent and the place of a new node. -/
def addPlace (value : α) (len : BitVec 32) (parent : Ptr) (link : Link) : Nat → Option (Ptr × Link)
  | 0 => none
  | fuel + 1 =>
    if rbt.load link = 0 then some (parent, link)
    else
      let parent := rbt.load link
      let side := if rbt.compare value len (rbt.data parent) < 0 then Side.left else .right
      addPlace value len parent (.child parent side) fuel

/-- `RbTree_add_`, with the address that the allocator gives. -/
def add (node : Ptr) (value : α) (len : BitVec 32) (fuel : Nat) : Option (RbTreeBase α × Ptr) :=
  if node = 0 then none
  else do
    let (parent, link) ← rbt.addPlace value len 0 .root fuel
    let rbt ← rbt.insert link node parent fuel
    return (rbt, node)

/-- The loop of `RbTree_find_or_add_`: the node that was found, or the parent and the place of a new node. -/
def findOrAddPlace (value : α) (len : BitVec 32) (parent : Ptr) (link : Link) : Nat → Option (Ptr ⊕ Ptr × Link)
  | 0 => none
  | fuel + 1 =>
    if rbt.load link = 0 then some (.inr (parent, link))
    else
      let parent := rbt.load link
      let res := rbt.compare value len (rbt.data parent)
      if res < 0 then findOrAddPlace value len parent (.child parent .left) fuel
      else if 0 < res then findOrAddPlace value len parent (.child parent .right) fuel
      else some (.inl parent)

/-- `RbTree_find_or_add_`: whether a node was added, and the node. -/
def findOrAdd (node : Ptr) (value : α) (len : BitVec 32) (fuel : Nat) : Option (RbTreeBase α × Bool × Ptr) := do
  match ← rbt.findOrAddPlace value len 0 .root fuel with
  | .inl found => return (rbt, false, found)
  | .inr (parent, link) =>
    if node = 0 then none
    let rbt ← rbt.insert link node parent fuel
    return (rbt, true, node)

/-! ### Search -/

/-- The loop of `RbTree_find_`. -/
def findFrom (value : α) (len : BitVec 32) (node : Ptr) : Nat → Option Ptr
  | 0 => none
  | fuel + 1 =>
    if node = 0 then some 0
    else
      let res := rbt.compare value len (rbt.data node)
      if res < 0 then findFrom value len (rbt.left node) fuel
      else if 0 < res then findFrom value len (rbt.right node) fuel
      else some node

/-- `RbTree_find_` -/
def find (value : α) (len : BitVec 32) (fuel : Nat) : Option Ptr := rbt.findFrom value len rbt.root fuel

/-! ### Iteration -/

/-- `while (node->left) node = node->left` -/
def leftmost (node : Ptr) : Nat → Option Ptr
  | 0 => none
  | fuel + 1 => if rbt.left node ≠ 0 then leftmost (rbt.left node) fuel else some node

/-- The loop of `RbTreeNode_next` that goes up. -/
def climb (node : Ptr) : Nat → Option Ptr
  | 0 => none
  | fuel + 1 =>
    let parent := rbt.parentOf node
    if parent ≠ 0 ∧ node = rbt.right parent then climb parent fuel else some parent

/-- `RbTreeNode_next` -/
def next (node : Ptr) (fuel : Nat) : Option Ptr :=
  if rbt.parent node = node then some 0
  else if rbt.right node ≠ 0 then rbt.leftmost (rbt.right node) fuel
  else rbt.climb node fuel

/-- `RbTree_first` -/
def first (fuel : Nat) : Option Ptr :=
  if rbt.root = 0 then some 0 else rbt.leftmost rbt.root fuel

/-- The nodes that `RbTreeNode_next` goes through from a node on, up to `NULL`. -/
def visitFrom (node : Ptr) : Nat → Option (List Ptr)
  | 0 => none
  | fuel + 1 =>
    if node = 0 then some []
    else do
      let node' ← rbt.next node fuel
      let nodes ← visitFrom node' fuel
      return node :: nodes

/-- The nodes that `RbTree_for_each` goes through. -/
def visit (fuel : Nat) : Option (List Ptr) := do
  let node ← rbt.first fuel
  rbt.visitFrom node fuel

/-! ### Equal values -/

/-- The loop of `RbTree_find_first_`. `match` is not initialised: until a node is stored, what it holds is not known. -/
def findFirstFrom (value : α) (len : BitVec 32) (node : Ptr) (found : Option Ptr) : Nat → Option (Option Ptr)
  | 0 => none
  | fuel + 1 =>
    if node = 0 then some found
    else
      let res := rbt.compare value len (rbt.data node)
      if res ≤ 0 then findFirstFrom value len (rbt.left node) (if res = 0 then some node else found) fuel
      else findFirstFrom value len (rbt.right node) found fuel

/-- `RbTree_find_first_` -/
def findFirst (value : α) (len : BitVec 32) (fuel : Nat) : Option (Option Ptr) :=
  rbt.findFirstFrom value len rbt.root none fuel

/-- `RbTreeNode_next_match_` -/
def nextMatch (node : Ptr) (cmp : α → BitVec 32 → α → Int) (value : α) (len : BitVec 32) (fuel : Nat) : Option Ptr := do
  let node ← rbt.next node fuel
  return if node ≠ 0 ∧ cmp value len (rbt.data node) = 0 then node else 0

/-- The nodes that `RbTree_for_each_match` goes through from a node on. -/
def matchesFrom (value : α) (len : BitVec 32) (node : Ptr) : Nat → Option (List Ptr)
  | 0 => none
  | fuel + 1 =>
    if node = 0 then some []
    else do
      let node' ← rbt.nextMatch node rbt.compare value len fuel
      let nodes ← matchesFrom value len node' fuel
      return node :: nodes

/-! ### Iteration backwards -/

/-- `while (node->right) node = node->right` -/
def rightmost (node : Ptr) : Nat → Option Ptr
  | 0 => none
  | fuel + 1 => if rbt.right node ≠ 0 then rightmost (rbt.right node) fuel else some node

/-- The loop of `RbTreeNode_prev` that goes up. -/
def climbBack (node : Ptr) : Nat → Option Ptr
  | 0 => none
  | fuel + 1 =>
    let parent := rbt.parentOf node
    if parent ≠ 0 ∧ node = rbt.left parent then climbBack parent fuel else some parent

/-- `RbTreeNode_prev` -/
def prev (node : Ptr) (fuel : Nat) : Option Ptr :=
  if rbt.parent node = node then some 0
  else if rbt.left node ≠ 0 then rbt.rightmost (rbt.left node) fuel
  else rbt.climbBack node fuel

/-! ### Dumps -/

/-- The character that `RbTree_dump_level` gives to `DumpValue` for the colour of a node. -/
def colorChar (node : Ptr) : Char := if rbt.is node .red then 'R' else 'B'

/-- `RbTree_dump_level`: the calls of `DumpValue`, and whether there was a node on the level. -/
def dumpLevel (node : Ptr) (level : Int) : Nat → Option (List (α × Char) × Bool)
  | 0 => none
  | fuel + 1 =>
    if node = 0 then some ([], false)
    else if level = 1 then some ([(rbt.data node, rbt.colorChar node)], true)
    else do
      let (values, left) ← dumpLevel (rbt.left node) (level - 1) fuel
      let (values', right) ← dumpLevel (rbt.right node) (level - 1) fuel
      return (values ++ values', left || right)

/-- The loop of `RbTree_dump_`. The call `DumpValue(NULL, 0)` after a level is `none`. -/
def dumpFrom (level : Int) : Nat → Option (List (Option (α × Char)))
  | 0 => none
  | fuel + 1 => do
    let (values, more) ← rbt.dumpLevel rbt.root level fuel
    if more then
      let rest ← dumpFrom (level + 1) fuel
      return values.map some ++ none :: rest
    else return values.map some

/-- `RbTree_dump_` -/
def dump (fuel : Nat) : Option (List (Option (α × Char))) := rbt.dumpFrom 1 fuel

end RbTreeBase

/-! ### Release -/

/-- The memory while a tree is released: the nodes that are allocated, and the elements that the destructor was called
    with. A use of a node that is not allocated has no result. -/
structure LiveNodes (α : Type) where
  rbt : RbTreeBase α
  live : List Ptr
  destroyed : List α

namespace LiveNodes
variable {α : Type} (s : LiveNodes α)

/-- A field of an allocated node. -/
def read {β : Type} (node : Ptr) (field : RbTreeBase α → Ptr → β) : Option β :=
  if node ∈ s.live then some (field s.rbt node) else none

/-- `elementDctor(node->data)`: the destructor changes the element that it is called with. -/
def destroy (dctor : α → α) (node : Ptr) : Option (LiveNodes α) := do
  let elem ← s.read node RbTreeBase.data
  return { s with rbt := s.rbt.setData node (dctor elem), destroyed := s.destroyed ++ [elem] }

/-- `RbTree_node_clear` -/
def nodeClear (node : Ptr) : Option (LiveNodes α) :=
  if node ∈ s.live then some { s with rbt := { s.rbt with parent := Function.update s.rbt.parent node node } } else none

/-- `Allocator_dealloc` -/
def dealloc (node : Ptr) : Option (LiveNodes α) :=
  if node ∈ s.live then some { s with live := s.live.erase node } else none

/-- What `RbTree_deinit_node` does to a node after its children. -/
def release (elementDctor : Option (α → α)) (node : Ptr) : Option (LiveNodes α) := do
  let s ← match elementDctor with
    | some dctor => s.destroy dctor node
    | none => some s
  let s ← s.nodeClear node
  s.dealloc node

/-- `RbTree_deinit_node` -/
def deinitNode (elementDctor : Option (α → α)) (s : LiveNodes α) (node : Ptr) : Nat → Option (LiveNodes α)
  | 0 => none
  | fuel + 1 =>
    if node = 0 then some s
    else do
      let left ← s.read node RbTreeBase.left
      let s ← deinitNode elementDctor s left fuel
      let right ← s.read node RbTreeBase.right
      let s ← deinitNode elementDctor s right fuel
      s.release elementDctor node

/-- `RbTree_deinit_` -/
def deinit (dct : Option (α → α)) (fuel : Nat) : Option (LiveNodes α) := do
  let s ← s.deinitNode dct s.rbt.root fuel
  return { s with rbt := { s.rbt with root := 0 } }

end LiveNodes

end Cyntatic
