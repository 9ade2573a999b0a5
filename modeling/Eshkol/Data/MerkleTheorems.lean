import Eshkol.Data.Merkle
import Mathlib.Data.List.Nodup

/-!
# Merkle trees bind their leaves

A tree that is built level by level stands for an abstract hash tree, whose twins are the inodes
with one shared child. Leaves, proofs and their verification are those of the hash tree.
-/

namespace Merkle

open Scheme ContentHash
open HashTree (Collision climb climbed)

variable {hashFn : Text → UInt64} {node : MerkleNode} {level : List MerkleNode} {next : ℕ}

/-- What an inode hashes of the hashes below it. -/
def hexPair (left right : UInt64) : Text := hashToHex left ++ hashToHex right

lemma hexPair_injective : Function.Injective2 hexPair := by
  intro l l' r r' h
  have hlength : (hashToHex l).length = (hashToHex l').length := by
    rw [length_hashToHex, length_hashToHex]
  obtain ⟨hl, hr⟩ := List.append_inj h hlength
  exact ⟨hashToHex_injective hl, hashToHex_injective hr⟩

namespace MerkleNode

/-- The hash tree of a node. -/
def tree : MerkleNode → HashTree Text
  | leaf _ _ data => .leaf data
  | inode _ _ l r => if l.address = r.address then .twin l.tree else .pair l.tree r.tree

/-- The strings that were hashed for the nodes of a tree. -/
def hashed : MerkleNode → List Text
  | leaf _ _ data => [data]
  | inode _ _ l r => (hashToHex l.root ++ hashToHex r.root) :: (l.hashed ++ r.hashed)

/-- The hashes are those of the data and of the hashes below, and children at one address are one
node. -/
def Sound (hashFn : Text → UInt64) : MerkleNode → Prop
  | leaf _ hash data => hash = hashFn data
  | inode _ hash l r => hash = merklePairHash hashFn l.root r.root ∧ l.Sound hashFn ∧ r.Sound hashFn ∧
    (l.address = r.address → l = r)

/-- The hash of a node is the digest of its hash tree. -/
lemma Sound.root_eq (h : node.Sound hashFn) : node.root = node.tree.digest hashFn hexPair := by
  induction node with
  | leaf address hash data => exact h
  | inode address hash l r ihl ihr =>
    obtain ⟨rfl, hl, hr, hshared⟩ := h
    rw [tree]
    split_ifs with heq
    · obtain rfl := hshared heq
      rw [HashTree.digest, ← ihl hl]
      rfl
    · rw [HashTree.digest, ← ihl hl, ← ihr hr]
      rfl

/-- All that the digest hashes was hashed for the nodes. -/
lemma Sound.hashed_subset (h : node.Sound hashFn) :
    node.tree.hashed hashFn hexPair ⊆ node.hashed := by
  induction node with
  | leaf address hash data => exact List.Subset.refl _
  | inode address hash l r ihl ihr =>
    obtain ⟨-, hl, hr, hshared⟩ := h
    rw [tree, hashed]
    split_ifs with heq
    · obtain rfl := hshared heq
      rw [HashTree.hashed, ← hl.root_eq]
      exact List.cons_subset_cons _ (List.subset_append_of_subset_left _ (ihl hl))
    · rw [HashTree.hashed, ← hl.root_eq, ← hr.root_eq]
      apply List.cons_subset_cons
      exact List.append_subset.2 ⟨List.subset_append_of_subset_left _ (ihl hl),
        List.subset_append_of_subset_right _ (ihr hr)⟩

end MerkleNode

/-! ## Leaves, proofs and verification -/

lemma merkleLeaves_eq (node : MerkleNode) : merkleLeaves node = node.tree.leaves := by
  induction node with
  | leaf address hash data => rfl
  | inode address hash l r ihl ihr =>
    rw [merkleLeaves, MerkleNode.tree, ihl, ihr]
    split_ifs <;> rfl

lemma merkleLeafCount_eq (node : MerkleNode) :
    merkleLeafCount node = node.tree.leaves.length := by
  induction node with
  | leaf address hash data => rfl
  | inode address hash l r ihl ihr =>
    rw [merkleLeafCount, MerkleNode.tree, ihl, ihr]
    split_ifs
    · rfl
    · rw [HashTree.leaves, List.length_append]

/-- A proof is the path of the abstract tree. -/
lemma merkleProofLoop_eq (h : node.Sound hashFn) {i : ℕ} (hi : i < node.tree.leaves.length)
    (acc : List (UInt64 × HashTree.Side)) :
    merkleProofLoop node i acc = node.tree.path hashFn hexPair i ++ acc := by
  induction node generalizing i acc with
  | leaf address hash data => rfl
  | inode address hash l r ihl ihr =>
    obtain ⟨-, hl, hr, hshared⟩ := h
    rw [merkleProofLoop, merkleLeafCount_eq, hl.root_eq, hr.root_eq]
    rw [MerkleNode.tree] at hi ⊢
    by_cases heq : l.address = r.address
    · obtain rfl := hshared heq
      rw [if_pos heq] at hi ⊢
      have hlt : i < l.tree.leaves.length := hi
      rw [if_pos (Int.ofNat_lt.2 hlt), ihl hl hlt, HashTree.path, List.append_assoc,
        List.singleton_append]
    · rw [if_neg heq] at hi ⊢
      rw [HashTree.path]
      by_cases hlt : i < l.tree.leaves.length
      · rw [if_pos (Int.ofNat_lt.2 hlt), if_pos hlt, ihl hl hlt, List.append_assoc,
          List.singleton_append]
      · rw [HashTree.leaves, List.length_append] at hi
        have hsub : (i : ℤ) - l.tree.leaves.length = ((i - l.tree.leaves.length : ℕ) : ℤ) := by
          omega
        rw [if_neg (Int.ofNat_lt.not.2 hlt), if_neg hlt, hsub, ihr hr (by omega), List.append_assoc,
          List.singleton_append]

lemma merkleVerifyLoop_eq (rootHash h : UInt64) (proof : List (UInt64 × HashTree.Side)) :
    merkleVerifyLoop hashFn rootHash h proof = (climb hashFn hexPair h proof == rootHash) := by
  induction proof generalizing h with
  | nil => rfl
  | cons step proof ih =>
    obtain ⟨siblingH, side⟩ := step
    rw [merkleVerifyLoop]
    cases side with
    | left => exact ih _
    | right => exact ih _

/-- Verification climbs from the leaf to the root. -/
lemma merkleVerify_iff (rootHash : UInt64) (leafData : Text)
    (proof : List (UInt64 × HashTree.Side)) :
    merkleVerify rootHash leafData proof [hashFn] = true ↔
      climb hashFn hexPair (hashFn leafData) proof = rootHash := by
  rw [merkleVerify, merkleVerifyLoop_eq, beq_iff_eq]
  rfl

/-! ## Building the tree -/

/-- The nodes of a level are sound, and at addresses of their own below the next free one. -/
structure LevelSound (hashFn : Text → UInt64) (level : List MerkleNode) (next : ℕ) : Prop where
  sound : ∀ n ∈ level, n.Sound hashFn
  distinct : (level.map MerkleNode.address).Nodup
  below : ∀ n ∈ level, n.address < next

/-- A new node goes to a level of its own address. -/
lemma LevelSound.cons (h : LevelSound hashFn level next) (hsound : node.Sound hashFn)
    (haddress : node.address = next) : LevelSound hashFn (node :: level) (next + 1) where
  sound := List.forall_mem_cons.2 ⟨hsound, h.sound⟩
  distinct := by
    rw [List.map_cons, List.nodup_cons, haddress]
    refine ⟨fun hmem => ?_, h.distinct⟩
    obtain ⟨n, hn, hnext⟩ := List.mem_map.1 hmem
    exact (h.below n hn).ne hnext
  below n hn := by
    rcases List.mem_cons.1 hn with rfl | hn
    · omega
    · exact Nat.lt_succ_of_lt (h.below n hn)

lemma LevelSound.reverse (h : LevelSound hashFn level next) :
    LevelSound hashFn level.reverse next where
  sound n hn := h.sound n (List.mem_reverse.1 hn)
  distinct := by
    rw [List.map_reverse, List.nodup_reverse]
    exact h.distinct
  below n hn := h.below n (List.mem_reverse.1 hn)

/-- The next level is that of the hash trees, after what was built before. -/
lemma merkleBuildLoop_spec {rest acc : List MerkleNode}
    (hsound : ∀ n ∈ rest, n.Sound hashFn) (hdistinct : (rest.map MerkleNode.address).Nodup)
    (hacc : LevelSound hashFn acc next) :
    LevelSound hashFn (merkleBuildLoop hashFn rest acc next).1
        (merkleBuildLoop hashFn rest acc next).2 ∧
      (merkleBuildLoop hashFn rest acc next).1.map MerkleNode.tree =
        acc.reverse.map MerkleNode.tree ++ HashTree.pairUp (rest.map MerkleNode.tree) := by
  induction rest, acc, next using merkleBuildLoop.induct hashFn with
  | case1 acc next =>
    rw [merkleBuildLoop]
    exact ⟨hacc.reverse, by simp [HashTree.pairUp]⟩
  | case2 only acc next =>
    have honly := hsound only List.mem_cons_self
    have hnew : (merkleInode hashFn next only only).Sound hashFn :=
      ⟨rfl, honly, honly, fun _ => rfl⟩
    rw [merkleBuildLoop]
    refine ⟨(hacc.cons hnew rfl).reverse, ?_⟩
    simp [HashTree.pairUp, merkleInode, MerkleNode.tree]
  | case3 l r rest acc next ih =>
    obtain ⟨hl, hr, hrest⟩ := by simpa only [List.forall_mem_cons] using hsound
    rw [List.map_cons, List.map_cons, List.nodup_cons, List.nodup_cons] at hdistinct
    -- neighbours are at different addresses
    have hne : l.address ≠ r.address := fun heq => hdistinct.1 (heq ▸ List.mem_cons_self)
    have hnew : (merkleInode hashFn next l r).Sound hashFn :=
      ⟨rfl, hl, hr, fun heq => absurd heq hne⟩
    obtain ⟨hbuilt, htrees⟩ := ih hrest hdistinct.2.2 (hacc.cons hnew rfl)
    rw [merkleBuildLoop]
    refine ⟨hbuilt, ?_⟩
    rw [htrees]
    simp [HashTree.pairUp, merkleInode, MerkleNode.tree, hne]

/-- The loop over the levels builds the hash tree of the level. -/
lemma merkleTreeLoop_spec (h : LevelSound hashFn level next) (hne : level ≠ []) :
    ∃ node, merkleTreeLoop hashFn level next = .ok node ∧ node.Sound hashFn ∧
      HashTree.build (level.map MerkleNode.tree) = some node.tree := by
  induction level, next using merkleTreeLoop.induct hashFn with
  | case1 next => exact absurd rfl hne
  | case2 next node =>
    refine ⟨node, by rw [merkleTreeLoop], h.sound node List.mem_cons_self, ?_⟩
    rw [List.map_singleton, HashTree.build]
  | case3 next l r rest built ih =>
    have hbuilt : LevelSound hashFn built.1 built.2 ∧ built.1.map MerkleNode.tree =
        HashTree.pairUp ((l :: r :: rest).map MerkleNode.tree) :=
      merkleBuildLoop_spec h.sound h.distinct ⟨by simp, List.nodup_nil, by simp⟩
    have hne' : built.1 ≠ [] := by
      intro hnil
      have htrees := hbuilt.2
      rw [hnil] at htrees
      simp [HashTree.pairUp] at htrees
    obtain ⟨node, hnode, hsound, htree⟩ := ih hbuilt.1 hne'
    rw [merkleTreeLoop, List.map_cons, List.map_cons, HashTree.build]
    refine ⟨node, hnode, hsound, ?_⟩
    rw [hbuilt.2] at htree
    exact htree

lemma merkleLeafNodes_spec (hashFn : Text → UInt64) (dataList : List Text) (next : ℕ) :
    (∀ n ∈ (merkleLeafNodes hashFn dataList next).1, n.Sound hashFn ∧ next ≤ n.address ∧
      n.address < (merkleLeafNodes hashFn dataList next).2) ∧
    ((merkleLeafNodes hashFn dataList next).1.map MerkleNode.address).Nodup ∧
    (merkleLeafNodes hashFn dataList next).1.map MerkleNode.tree = dataList.map .leaf ∧
    next ≤ (merkleLeafNodes hashFn dataList next).2 := by
  induction dataList generalizing next with
  | nil => simp [merkleLeafNodes]
  | cons d dataList ih =>
    obtain ⟨hnodes, hdistinct, htrees, hle⟩ := ih (next + 1)
    refine ⟨?_, ?_, ?_, ?_⟩
    · intro n hn
      rcases List.mem_cons.1 hn with rfl | hn
      · exact ⟨rfl, Nat.le_refl _, hle⟩
      · obtain ⟨hsound, hlow, hhigh⟩ := hnodes n hn
        exact ⟨hsound, Nat.le_of_succ_le hlow, hhigh⟩
    · refine List.nodup_cons.2 ⟨fun hmem => ?_, hdistinct⟩
      obtain ⟨n, hn, hnext⟩ := List.mem_map.1 hmem
      have hlow := (hnodes n hn).2.1
      rw [hnext] at hlow
      exact Nat.not_succ_le_self _ hlow
    · exact congrArg _ htrees
    · exact Nat.le_of_succ_le hle

/-- A tree of a list of strings is sound and stands for the hash tree of the list. -/
lemma merkleTreeWithHash_spec (hashFn : Text → UInt64) {dataList : List Text}
    (h : dataList ≠ []) : ∃ node, merkleTreeWithHash dataList hashFn = .ok node ∧
      node.Sound hashFn ∧ HashTree.build (dataList.map .leaf) = some node.tree := by
  obtain ⟨hnodes, hdistinct, htrees, -⟩ := merkleLeafNodes_spec hashFn dataList 0
  have hlevel : LevelSound hashFn (merkleLeafNodes hashFn dataList 0).1
      (merkleLeafNodes hashFn dataList 0).2 :=
    ⟨fun n hn => (hnodes n hn).1, hdistinct, fun n hn => (hnodes n hn).2.2⟩
  have hne : (merkleLeafNodes hashFn dataList 0).1 ≠ [] := by
    intro hnil
    rw [hnil] at htrees
    exact h (List.map_eq_nil_iff.1 htrees.symm)
  obtain ⟨node, hnode, hsound, htree⟩ := merkleTreeLoop_spec hlevel hne
  refine ⟨node, ?_, hsound, htrees ▸ htree⟩
  rw [merkleTreeWithHash, if_neg (by simpa using h)]
  exact hnode

/-- The leaves of the tree of a list are the list, the proof of every index is accepted, a list of
the same length with the same root is the same but for a collision between strings that were hashed
for the trees, and what a proof of the same sides accepts is the leaf but for a collision with a
string that was hashed for the proof. -/
theorem merkle_trees (hashFn : Text → UInt64) (dataList : List Text) (h : dataList ≠ []) :
    ∃ tree, merkleTreeWithHash dataList hashFn = .ok tree ∧ merkleLeaves tree = dataList ∧
      (∀ (i : ℕ) a, dataList[i]? = some a →
        merkleVerify tree.root a (merkleProof tree i) [hashFn] = true) ∧
      (∀ other tree', other.length = dataList.length →
        merkleTreeWithHash other hashFn = .ok tree' → tree.root = tree'.root →
        dataList = other ∨ Collision hashFn tree.hashed tree'.hashed) ∧
      ∀ (i : ℕ) a b proof, dataList[i]? = some a →
        proof.map Prod.snd = (merkleProof tree i).map Prod.snd →
        merkleVerify tree.root b proof [hashFn] = true →
        b = a ∨ Collision hashFn (b :: climbed hashFn hexPair (hashFn b) proof) tree.hashed := by
  obtain ⟨tree, htree, hsound, hbuild⟩ := merkleTreeWithHash_spec hashFn h
  have hleaves : tree.tree.leaves = dataList := by
    rw [HashTree.leaves_of_build hbuild]
    simp [List.flatMap_map, HashTree.leaves]
  have hpath {i : ℕ} {a : Text} (ha : dataList[i]? = some a) :
      merkleProof tree i = tree.tree.path hashFn hexPair i := by
    have hi := (List.getElem?_eq_some_iff.1 ha).1
    rw [merkleProof, merkleProofLoop_eq hsound (by rwa [hleaves]), List.append_nil]
  refine ⟨tree, htree, ?_, fun i a ha => ?_, fun other tree' hlength hother hroot => ?_,
    fun i a b proof ha hsides hverify => ?_⟩
  · rw [merkleLeaves_eq, hleaves]
  · rw [merkleVerify_iff, hpath ha, hsound.root_eq]
    exact HashTree.climb_path (by rwa [hleaves])
  · have hne : other ≠ [] := by
      rintro rfl
      exact h (List.eq_nil_of_length_eq_zero hlength.symm)
    obtain ⟨node, hnode, hsound', hbuild'⟩ := merkleTreeWithHash_spec hashFn hne
    obtain rfl := Except.ok.inj (hnode.symm.trans hother)
    have hshape := HashTree.sameShape_of_build (HashTree.sameShape_leaves hlength.symm) hbuild hbuild'
    rw [hsound.root_eq, hsound'.root_eq] at hroot
    rcases HashTree.eq_of_digest_eq hexPair_injective hshape hroot with heq | hcollision
    · left
      rw [heq, HashTree.leaves_of_build hbuild'] at hleaves
      simpa [List.flatMap_map, HashTree.leaves] using hleaves.symm
    · exact .inr (hcollision.mono hsound.hashed_subset hsound'.hashed_subset)
  · rw [hpath ha] at hsides
    rw [merkleVerify_iff, hsound.root_eq] at hverify
    have hbinds := HashTree.eq_of_climb hexPair_injective (by rwa [hleaves]) hsides hverify
    exact hbinds.imp_right fun hcollision =>
      hcollision.mono (List.Subset.refl _) hsound.hashed_subset

/-- The proof of the third of three strings, whose node is its own sibling. -/
theorem merkle_trees_three : ∃ tree, merkleTree [['a'], ['b'], ['c']] = .ok tree ∧
    merkleVerify tree.root ['c'] (merkleProof tree 2) [fnv1a64] = true := by
  obtain ⟨tree, htree, -, hverify, -⟩ :=
    merkle_trees fnv1a64 [['a'], ['b'], ['c']] (by decide)
  exact ⟨tree, htree, hverify 2 ['c'] rfl⟩

end Merkle
