import Eshkol.Base.HashTree
import Eshkol.Data.ContentHash
import Eshkol.Scheme.Primitives

/-!
# Merkle trees

Trees of hashes over a list of strings, in which the last node of an odd level stands on both sides
of its parent. A node is a vector on the heap, which the tests for shared children tell apart from
others by its address; the functions that allocate pass the next free address on.
-/

namespace Merkle

open Scheme ContentHash

/-- `(vector 'merkle-leaf hash data)` and `(vector 'merkle-inode hash left right)`, with the address
of the vector. -/
inductive MerkleNode where
  | leaf (address : ℕ) (hash : UInt64) (data : Text)
  | inode (address : ℕ) (hash : UInt64) (left right : MerkleNode)

namespace MerkleNode

/-- What `eq?` compares. -/
def address : MerkleNode → ℕ
  | leaf address _ _ => address
  | inode address _ _ _ => address

/-- `merkle-root`. -/
def root : MerkleNode → UInt64
  | leaf _ hash _ => hash
  | inode _ hash _ _ => hash

end MerkleNode

/-- `merkle-leaf`, at an address. -/
def merkleLeaf (address : ℕ) (data : Text) (hashFnOpt : List (Text → UInt64)) : MerkleNode :=
  .leaf address (hashFnOpt.headD fnv1a64 data) data

/-- `merkle-pair-hash`. -/
def merklePairHash (hashFn : Text → UInt64) (left right : UInt64) : UInt64 :=
  hashFn (hashToHex left ++ hashToHex right)

/-- A new inode over two nodes. -/
def merkleInode (hashFn : Text → UInt64) (address : ℕ) (l r : MerkleNode) : MerkleNode :=
  .inode address (merklePairHash hashFn l.root r.root) l r

/-- The loop of `merkle-build-level`. -/
def merkleBuildLoop (hashFn : Text → UInt64) :
    List MerkleNode → List MerkleNode → ℕ → List MerkleNode × ℕ
  | [], acc, next => (acc.reverse, next)
  | [only], acc, next => ((merkleInode hashFn next only only :: acc).reverse, next + 1)
  | l :: r :: rest, acc, next =>
    merkleBuildLoop hashFn rest (merkleInode hashFn next l r :: acc) (next + 1)

/-- `merkle-build-level`. -/
def merkleBuildLevel (hashFn : Text → UInt64) (nodes : List MerkleNode) (next : ℕ) :
    List MerkleNode × ℕ :=
  match nodes with
  | [] => ([], next)
  | [node] => ([node], next)
  | l :: r :: rest => merkleBuildLoop hashFn (l :: r :: rest) [] next

lemma length_merkleBuildLoop (hashFn : Text → UInt64) (rest acc : List MerkleNode) (next : ℕ) :
    (merkleBuildLoop hashFn rest acc next).1.length = acc.length + (rest.length + 1) / 2 := by
  induction rest, acc, next using merkleBuildLoop.induct hashFn with
  | case1 acc next => simp [merkleBuildLoop]
  | case2 only acc next => simp [merkleBuildLoop]
  | case3 l r rest acc next ih =>
    rw [merkleBuildLoop, ih, List.length_cons, List.length_cons, List.length_cons]
    omega

/-- The loop of `merkle-tree-with-hash` over the levels. -/
def merkleTreeLoop (hashFn : Text → UInt64) (level : List MerkleNode) (next : ℕ) :
    Except SchemeError MerkleNode :=
  match level with
  | [] => raise "cdr: argument is not a pair" []
  | [node] => .ok node
  | l :: r :: rest =>
    let built := merkleBuildLevel hashFn (l :: r :: rest) next
    merkleTreeLoop hashFn built.1 built.2
termination_by level.length
decreasing_by
  rw [merkleBuildLevel, length_merkleBuildLoop]
  simp only [List.length_nil, List.length_cons]
  omega

/-- The leaves of a list of strings, at the addresses from `next` on. -/
def merkleLeafNodes (hashFn : Text → UInt64) : List Text → ℕ → List MerkleNode × ℕ
  | [], next => ([], next)
  | d :: dataList, next =>
    let rest := merkleLeafNodes hashFn dataList (next + 1)
    (merkleLeaf next d [hashFn] :: rest.1, rest.2)

/-- `merkle-tree-with-hash`. -/
def merkleTreeWithHash (dataList : List Text) (hashFn : Text → UInt64) :
    Except SchemeError MerkleNode :=
  if dataList.isEmpty then raise "merkle-tree-with-hash: cannot build tree from empty list" []
  else
    let leaves := merkleLeafNodes hashFn dataList 0
    merkleTreeLoop hashFn leaves.1 leaves.2

/-- `merkle-tree`. -/
def merkleTree (dataList : List Text) : Except SchemeError MerkleNode :=
  merkleTreeWithHash dataList fnv1a64

/-- `merkle-leaves`. -/
def merkleLeaves : MerkleNode → List Text
  | .leaf _ _ data => [data]
  | .inode _ _ l r =>
    if l.address = r.address then merkleLeaves l else merkleLeaves l ++ merkleLeaves r

/-- `merkle-leaf-count`. -/
def merkleLeafCount : MerkleNode → ℕ
  | .leaf _ _ _ => 1
  | .inode _ _ l r =>
    if l.address = r.address then merkleLeafCount l else merkleLeafCount l + merkleLeafCount r

/-- The loop of `merkle-proof`. -/
def merkleProofLoop : MerkleNode → ℤ → List (UInt64 × HashTree.Side) →
    List (UInt64 × HashTree.Side)
  | .leaf _ _ _, _, acc => acc
  | .inode _ _ l r, i, acc =>
    let leftCount := merkleLeafCount l
    if i < leftCount then merkleProofLoop l i ((r.root, .right) :: acc)
    else merkleProofLoop r (i - leftCount) ((l.root, .left) :: acc)

/-- `merkle-proof`. -/
def merkleProof (tree : MerkleNode) (index : ℤ) : List (UInt64 × HashTree.Side) :=
  merkleProofLoop tree index []

/-- The loop of `merkle-verify`. -/
def merkleVerifyLoop (hashFn : Text → UInt64) (rootHash : UInt64) :
    UInt64 → List (UInt64 × HashTree.Side) → Bool
  | h, [] => h == rootHash
  | h, (siblingH, side) :: rest =>
    let combined := if side = .right then merklePairHash hashFn h siblingH
      else merklePairHash hashFn siblingH h
    merkleVerifyLoop hashFn rootHash combined rest

/-- `merkle-verify`. -/
def merkleVerify (rootHash : UInt64) (leafData : Text) (proof : List (UInt64 × HashTree.Side))
    (hashFnOpt : List (Text → UInt64)) : Bool :=
  let hashFn := hashFnOpt.headD fnv1a64
  merkleVerifyLoop hashFn rootHash (hashFn leafData) proof

end Merkle
