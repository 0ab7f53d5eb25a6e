import CgrJni.LinkedTree
import CgrJni.Runs

/-!
The red-black trees of `smrbt.c`, on the cells of a partition. The dummy root of
a pass stands at address zero, where no node is; following a null pointer ends a
pass with `none`, and so does a loop that does not come to an end. The allocator
is outside: an insertion is given the address of its new node.
-/

namespace Smrbt

open RedBlack LinkedTree

abbrev PsmAddress := Nat
abbrev SmRbtNode := Cell PsmAddress
abbrev Partition := Memory PsmAddress

structure SmRbt where
  root : PsmAddress
  length : Nat
  nodes : Partition
  allocated : List PsmAddress

def eraseTreeNode (nodes : Partition) (node : PsmAddress) : Partition :=
  Function.update nodes node ⟨0, links .right 0 0, 0, false⟩

def smRbtCreate : SmRbt := ⟨0, 0, fun _ => ⟨0, links .right 0 0, 0, false⟩, []⟩

def nodeIsRed (nodes : Partition) (node : PsmAddress) : Bool := node ≠ 0 && (nodes node).isRed

/-- The new root of the subtree is returned. -/
def rotateOnce (nodes : Partition) (root : PsmAddress) (direction : Dir) : Option (Partition × PsmAddress) :=
  let pivot := (nodes root).child direction.other
  if root = 0 ∨ pivot = 0 then none
  else
    let orphan := (nodes pivot).child direction
    let nodes := setParent nodes pivot (nodes root).parent
    let nodes := setChild nodes pivot direction root
    let nodes := setRed nodes pivot false
    let nodes := setParent nodes root pivot
    let nodes := setChild nodes root direction.other orphan
    let nodes := setRed nodes root true
    some (if orphan = 0 then nodes else setParent nodes orphan root, pivot)

def rotateTwice (nodes : Partition) (root : PsmAddress) (direction : Dir) : Option (Partition × PsmAddress) :=
  if root = 0 then none
  else
    (rotateOnce nodes ((nodes root).child direction.other) direction.other).bind fun inner =>
      rotateOnce (setChild inner.1 root direction.other inner.2) root direction

def createNode (nodes : Partition) (node parent data : PsmAddress) (isRed : Bool) : Partition :=
  Function.update nodes node ⟨parent, links .right 0 0, data, isRed⟩

def dummyRoot (rbt : SmRbt) : Partition := Function.update rbt.nodes 0 ⟨0, links .right rbt.root 0, 0, false⟩

/-- The end of either pass: the new root is taken off the dummy root and made black. -/
def finish (nodes : Partition) (length : Nat) (allocated : List PsmAddress) : SmRbt :=
  let root := (nodes 0).child .right
  ⟨root, length, if root = 0 then nodes else setRed nodes root false, allocated⟩

section

variable {κ : Type} (compare : PsmAddress → κ → Int) (key : κ)

/-- Where the pass of an insertion is; the dummy root is the first great-grandparent. -/
structure InsertPass where
  nodes : Partition
  greatgrandparentPtr : PsmAddress
  grandparent : PsmAddress
  parent : PsmAddress
  node : PsmAddress
  direction : Dir
  prevDirection : Dir

/-- The new node is put where there is none yet; elsewhere two red children hand their colour up. -/
def placeOrFlip (newNode data : PsmAddress) (s : InsertPass) : Option InsertPass :=
  if s.node = 0 then
    if s.parent = 0 then none
    else
      let nodes := createNode s.nodes newNode s.parent data true
      some { s with nodes := setChild nodes s.parent s.direction newNode, node := newNode }
  else
    let left := (s.nodes s.node).child .left
    let right := (s.nodes s.node).child .right
    if nodeIsRed s.nodes left && nodeIsRed s.nodes right then
      some { s with nodes := setRed (setRed (setRed s.nodes s.node true) left false) right false }
    else some s

/-- A red violation between the node and its parent is fixed. -/
def fixViolation (s : InsertPass) : Option InsertPass :=
  if nodeIsRed s.nodes s.parent && nodeIsRed s.nodes s.node then
    let subtree : Dir :=
      if (s.nodes s.greatgrandparentPtr).child .right = s.grandparent then .right else .left
    let rotated :=
      if s.node = (s.nodes s.parent).child s.prevDirection then
        rotateOnce s.nodes s.grandparent s.prevDirection.other
      else rotateTwice s.nodes s.grandparent s.prevDirection.other
    rotated.map fun r => { s with nodes := setChild r.1 s.greatgrandparentPtr subtree r.2 }
  else some s

/-- The side on which to look for a key below a node. -/
def branchTo (data : PsmAddress) : Dir := if compare data key < 0 then .right else .left

def descend (s : InsertPass) : InsertPass :=
  let direction := branchTo compare key (s.nodes s.node).data
  { s with
    greatgrandparentPtr := if s.grandparent = 0 then s.greatgrandparentPtr else s.grandparent
    grandparent := s.parent
    parent := s.node
    node := (s.nodes s.node).child direction
    direction := direction
    prevDirection := s.direction }

def insertRound (newNode data : PsmAddress) (s : InsertPass) : InsertPass ⊕ Option InsertPass :=
  match (placeOrFlip newNode data s).bind fixViolation with
  | none => .inr none
  | some t => if (t.nodes t.node).data = data then .inr (some t) else .inl (descend compare key t)

/-- Where the pass starts, in a tree that is not empty. -/
def insertStart (rbt : SmRbt) : InsertPass where
  nodes := dummyRoot rbt
  greatgrandparentPtr := 0
  grandparent := 0
  parent := 0
  node := rbt.root
  direction := .left
  prevDirection := .left

def smRbtInsert (rbt : SmRbt) (newNode data : PsmAddress) : Option (SmRbt × PsmAddress) :=
  if rbt.root = 0 then
    some (⟨newNode, 1, createNode rbt.nodes newNode 0 data false, newNode :: rbt.allocated⟩, newNode)
  else
    (Runs.loop (insertRound compare key newNode data) (2 * rbt.length + 2) (insertStart rbt)).join.map fun s =>
      (finish s.nodes (rbt.length + 1) (newNode :: rbt.allocated), s.node)

/-- Where the pass of a deletion is; there is no pointer to a parent at first. -/
structure DeletePass where
  nodes : Partition
  parentPtr : Option PsmAddress
  node : PsmAddress
  direction : Dir
  target : PsmAddress

/-- A sibling with a red child: the parent is rotated down, below that child or the sibling. -/
def lendRed (s : DeletePass) (grandparentPtr : Option PsmAddress) (parent sibling : PsmAddress)
    (prevDirection : Dir) : Option DeletePass :=
  grandparentPtr.bind fun grandparent =>
    let subtree : Dir := if parent = (s.nodes grandparent).child .right then .right else .left
    let rotated :=
      if nodeIsRed s.nodes ((s.nodes sibling).child prevDirection) then
        rotateTwice s.nodes parent prevDirection
      else if nodeIsRed s.nodes ((s.nodes sibling).child prevDirection.other) then
        rotateOnce s.nodes parent prevDirection
      else some (s.nodes, (s.nodes grandparent).child subtree)
    rotated.bind fun r =>
      let nodes := setChild r.1 grandparent subtree r.2
      let stepparent := (nodes grandparent).child subtree
      let left := (nodes stepparent).child .left
      let right := (nodes stepparent).child .right
      if left = 0 ∨ right = 0 then none
      else
        let nodes := setRed (setRed nodes stepparent true) s.node true
        some { s with nodes := setRed (setRed nodes left false) right false }

/-- Some redness is introduced at a node that is not red and whose next child is not. -/
def redden (s : DeletePass) (grandparentPtr : Option PsmAddress) (parent : PsmAddress) (prevDirection : Dir) :
    Option DeletePass :=
  if nodeIsRed s.nodes ((s.nodes s.node).child s.direction.other) then
    (rotateOnce s.nodes s.node s.direction).map fun r =>
      let nodes := setChild r.1 parent prevDirection r.2
      { s with nodes := nodes, parentPtr := some ((nodes parent).child prevDirection) }
  else
    let sibling := (s.nodes parent).child prevDirection.other
    if sibling = 0 then some s
    else if nodeIsRed s.nodes ((s.nodes sibling).child .left) = false ∧
        nodeIsRed s.nodes ((s.nodes sibling).child .right) = false then
      some { s with nodes := setRed (setRed (setRed s.nodes parent false) sibling true) s.node true }
    else lendRed s grandparentPtr parent sibling prevDirection

def deleteRound (s : DeletePass) : DeletePass ⊕ Option DeletePass :=
  let node := (s.nodes s.node).child s.direction
  if node = 0 then .inr (some s)
  else
    let result := compare (s.nodes node).data key
    let t : DeletePass :=
      { nodes := s.nodes
        parentPtr := some s.node
        node := node
        direction := if result < 0 then .right else .left
        target := if result = 0 then node else s.target }
    if nodeIsRed s.nodes node || nodeIsRed s.nodes ((s.nodes node).child t.direction) then .inl t
    else
      match redden t s.parentPtr s.node s.direction with
      | none => .inr none
      | some t => .inl t

def deleteStart (rbt : SmRbt) : DeletePass where
  nodes := dummyRoot rbt
  parentPtr := none
  node := 0
  direction := .right
  target := 0

/-- The pass down to the node that will be unlinked. -/
def deletePass (rbt : SmRbt) : Option DeletePass :=
  (Runs.loop (deleteRound compare key) (rbt.length + 1) (deleteStart rbt)).join

/-- The target, if there is one, takes over the data of the node, which its parent then forgets. -/
def unlink (rbt : SmRbt) (s : DeletePass) : Option (SmRbt × Option PsmAddress) :=
  if s.target = 0 then some (finish s.nodes rbt.length rbt.allocated, none)
  else
    s.parentPtr.map fun parent =>
      let deleted := (s.nodes s.target).data
      let nodes := setData s.nodes s.target (s.nodes s.node).data
      let i : Dir := if (nodes parent).child .right = s.node then .right else .left
      let j : Dir := if (nodes s.node).child .left = 0 then .right else .left
      let nodes := setChild nodes parent i ((nodes s.node).child j)
      (finish (eraseTreeNode nodes s.node) (rbt.length - 1) (rbt.allocated.erase s.node), some deleted)

/-- The tree after the deletion, and the data that the delete function is called for. -/
def smRbtDelete (rbt : SmRbt) : Option (SmRbt × Option PsmAddress) :=
  if rbt.length = 0 ∨ rbt.root = 0 then some (rbt, none)
  else (deletePass compare key rbt).bind (unlink rbt)

end

/-- The node that one comes to by always going to one side. -/
def outermostRound (nodes : Partition) (direction : Dir) (s : PsmAddress × PsmAddress) :
    (PsmAddress × PsmAddress) ⊕ PsmAddress :=
  if s.2 = 0 then .inr s.1 else .inl (s.2, (nodes s.2).child direction)

def smRbtFirst (rbt : SmRbt) : Option PsmAddress :=
  Runs.loop (outermostRound rbt.nodes .left) (rbt.length + 1) (0, rbt.root)

def smRbtLast (rbt : SmRbt) : Option PsmAddress :=
  Runs.loop (outermostRound rbt.nodes .right) (rbt.length + 1) (0, rbt.root)

/-- Popping up until the node was left by the side opposite to the direction of traversal. -/
def popRound (nodes : Partition) (direction : Dir) (s : PsmAddress × PsmAddress) :
    (PsmAddress × PsmAddress) ⊕ PsmAddress :=
  if s.2 = 0 then .inr 0
  else if s.1 = (nodes s.2).child direction.other then .inr s.2
  else .inl (s.2, (nodes s.2).parent)

def traverseRbt (rbt : SmRbt) (fromNode : PsmAddress) (direction : Dir) : Option PsmAddress :=
  if (rbt.nodes fromNode).child direction = 0 then
    Runs.loop (popRound rbt.nodes direction) (rbt.length + 1) (fromNode, (rbt.nodes fromNode).parent)
  else
    Runs.loop (outermostRound rbt.nodes direction.other) (rbt.length + 1)
      (0, (rbt.nodes fromNode).child direction)

def smRbtTraverse (rbt : SmRbt) (fromNode : PsmAddress) (direction : Dir) : Option PsmAddress :=
  if fromNode = 0 then some 0 else traverseRbt rbt fromNode direction

def smRbtNext (rbt : SmRbt) (node : PsmAddress) : Option PsmAddress := smRbtTraverse rbt node .right

def smRbtPrev (rbt : SmRbt) (node : PsmAddress) : Option PsmAddress := smRbtTraverse rbt node .left

def smRbtData (rbt : SmRbt) (node : PsmAddress) : PsmAddress := (rbt.nodes node).data

/-- Where a search is: the node, the one before it, and the side last taken. -/
structure SearchPass where
  node : PsmAddress
  prevNode : PsmAddress
  direction : Dir

def searchRound {κ : Type} (compare : PsmAddress → κ → Int) (key : κ) (nodes : Partition) (s : SearchPass) :
    SearchPass ⊕ SearchPass :=
  if s.node = 0 then .inr s
  else
    let result := compare (nodes s.node).data key
    if result = 0 then .inr s
    else
      let direction : Dir := if result < 0 then .right else .left
      .inl ⟨(nodes s.node).child direction, s.node, direction⟩

/-- The node with the key and, if there is none, the successor. -/
def smRbtSearch {κ : Type} (compare : PsmAddress → κ → Int) (key : κ) (rbt : SmRbt) :
    Option (PsmAddress × PsmAddress) :=
  (Runs.loop (searchRound compare key rbt.nodes) (rbt.length + 1) ⟨rbt.root, 0, .left⟩).bind fun s =>
    if s.node ≠ 0 then some (s.node, 0)
    else if s.direction = .left ∨ s.prevNode = 0 then some (0, s.prevNode)
    else (traverseRbt rbt s.prevNode .right).map fun successor => (0, successor)

/-- The heights that the debugging code compares, zero for a subtree that is broken. -/
def subtreeBlackHeight (nodes : Partition) : Nat → PsmAddress → Option Nat
  | 0, _ => none
  | fuel + 1, node =>
    if node = 0 then some 1
    else if (nodes node).isRed && (nodeIsRed nodes ((nodes node).child .left) ||
        nodeIsRed nodes ((nodes node).child .right)) then some 0
    else
      (subtreeBlackHeight nodes fuel ((nodes node).child .left)).bind fun left =>
        (subtreeBlackHeight nodes fuel ((nodes node).child .right)).map fun right =>
          if left = 0 ∨ right = 0 then 0
          else if left ≠ right then 0
          else if (nodes node).isRed then left else left + 1

def treeBroken (rbt : SmRbt) : Option Bool :=
  (subtreeBlackHeight rbt.nodes (rbt.length + 1) rbt.root).map fun height => height == 0

end Smrbt
