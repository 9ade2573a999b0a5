import Mathlib.Data.Nat.Bitwise
import Mathlib.Order.Interval.Finset.Nat

/-!
# Arena allocation

An arena is a chain of blocks that grows at its head. A scope remembers the head block and how much
of it was used, and popping it frees what was allocated since. Sizes are 64-bit words.
-/

namespace ArenaCore

/-- `arena_block_t`; `id` is the address of the record itself. -/
structure Block where
  id : ℕ
  memory : ℕ
  size : ℕ
  used : ℕ

/-- `arena_scope_t`, without the pointer to its parent. -/
structure Scope where
  block : ℕ
  used : ℕ

/-- `arena_t`: the chains from `current_block` and `current_scope` on. -/
structure Arena where
  blocks : List Block
  scopes : List Scope
  defaultBlockSize : ℕ
  totalAllocated : ℕ
  bounded : Bool

/-- What ends the process: a null block or a block that was freed is accessed. -/
inductive Fault where
  | nullBlock | danglingBlock
deriving DecidableEq

/-- The result of `size_t` arithmetic. -/
def word (n : ℕ) : ℕ := n % 2 ^ 64

/-- `SIZE_MAX`. -/
def sizeMax : ℕ := 2 ^ 64 - 1

/-- `x & ~(alignment - 1)`. -/
def clearLow (x alignment : ℕ) : ℕ := x &&& (2 ^ 64 - alignment)

/-- `align_size`. -/
def alignSize (size alignment : ℕ) : ℕ := clearLow (word (size + alignment - 1)) alignment

/-- `align_block_offset`. -/
def alignBlockOffset (block : Block) (used alignment : ℕ) : ℕ :=
  let rawAddr := word (block.memory + used)
  let alignedAddr := clearLow (word (rawAddr + alignment - 1)) alignment
  word (alignedAddr + 2 ^ 64 - block.memory)

/-- What `malloc` answers for a block of the given size: the addresses of the record and of its
memory, or nothing when one of the two fails. -/
abbrev Malloc := ℕ → Option (ℕ × ℕ)

/-- `arena_create`, after its two allocations. -/
def arenaCreate (defaultBlockSize id memory : ℕ) (bounded : Bool) : Arena :=
  let size := if defaultBlockSize < 1024 then 1024 else defaultBlockSize
  { blocks := [⟨id, memory, size, 0⟩], scopes := [], defaultBlockSize := size
    totalAllocated := size, bounded := bounded }

/-- The part of `arena_allocate_aligned` that follows the checks of the request: the head block, or
a new one where the head is too small. -/
def allocateFromBlock (arena : Arena) (alignedSize alignment : ℕ) (malloc : Malloc) :
    Except Fault (Arena × Option ℕ) :=
  match arena.blocks with
  | [] => .error .nullBlock
  | block :: rest =>
    let currentUsed := alignBlockOffset block block.used alignment
    if word (currentUsed + alignedSize) > block.size then
      if arena.bounded then .ok (arena, none)
      else
        let minBlockSize := word (alignedSize + alignment - 1)
        let newBlockSize :=
          if minBlockSize > arena.defaultBlockSize then minBlockSize else arena.defaultBlockSize
        match malloc newBlockSize with
        | none => .ok (arena, none)
        | some (id, memory) =>
          let newBlock : Block := ⟨id, memory, newBlockSize, 0⟩
          let currentUsed := alignBlockOffset newBlock 0 alignment
          let newBlock := { newBlock with used := word (currentUsed + alignedSize) }
          .ok ({ arena with
              blocks := newBlock :: block :: rest
              totalAllocated := word (arena.totalAllocated + newBlockSize) },
            some (memory + currentUsed))
    else
      let block' := { block with used := word (currentUsed + alignedSize) }
      .ok ({ arena with blocks := block' :: rest }, some (block.memory + currentUsed))

/-- `arena_allocate_aligned`, which returns the arena and the pointer. -/
def arenaAllocateAligned (arena : Arena) (size alignment : ℕ) (malloc : Malloc) :
    Except Fault (Arena × Option ℕ) :=
  if size = 0 then .ok (arena, none)
  else
    let alignment := if alignment = 0 then 8 else alignment
    if alignment &&& (alignment - 1) ≠ 0 then .ok (arena, none)
    else if size > sizeMax - (alignment - 1) then .ok (arena, none)
    else
      let alignedSize := alignSize size alignment
      if alignedSize > sizeMax - (alignment - 1) then .ok (arena, none)
      else allocateFromBlock arena alignedSize alignment malloc

/-- `arena_push_scope`. -/
def arenaPushScope (arena : Arena) : Except Fault Arena :=
  match arena.blocks with
  | [] => .error .nullBlock
  | block :: _ => .ok { arena with scopes := ⟨block.id, block.used⟩ :: arena.scopes }

/-- The bytes of freed blocks leave the total. -/
def subtractSizes (total : ℕ) (freed : List Block) : ℕ :=
  freed.foldl (fun total block => word (total + 2 ^ 64 - block.size)) total

/-- `arena_pop_scope`: the blocks before that of the scope are freed. -/
def arenaPopScope (arena : Arena) : Except Fault Arena :=
  match arena.scopes with
  | [] => .ok arena
  | scope :: parents =>
    let freed := arena.blocks.takeWhile fun block => block.id ≠ scope.block
    match arena.blocks.dropWhile fun block => block.id ≠ scope.block with
    | [] => .error .danglingBlock
    | block :: rest =>
      .ok { arena with
        blocks := { block with used := scope.used } :: rest
        scopes := parents
        totalAllocated := subtractSizes arena.totalAllocated freed }

/-- `arena_commit_scope`. -/
def arenaCommitScope (arena : Arena) : Arena := { arena with scopes := arena.scopes.tail }

/-- The loop of `arena_top_scope_contains`. -/
def spanContains (scope : Scope) (p : ℕ) : List Block → Bool
  | [] => false
  | b :: blocks =>
    if b.id = scope.block then decide (p ≥ b.memory + scope.used) && decide (p < b.memory + b.used)
    else if p ≥ b.memory ∧ p < b.memory + b.used then true
    else spanContains scope p blocks

/-- `arena_top_scope_contains`. -/
def arenaTopScopeContains (arena : Arena) (p : ℕ) : Bool :=
  match arena.scopes with
  | [] => false
  | scope :: _ => decide (p ≠ 0) && spanContains scope p arena.blocks

/-- `eshkol_tagged_value_t`: the tag and the data word. -/
structure TaggedValue where
  type : ℕ
  data : ℕ

/-- The tags of values without a pointer. -/
def TaggedValue.Immediate (v : TaggedValue) : Prop := v.type ≤ 4 ∨ v.type = 255

instance (v : TaggedValue) : Decidable v.Immediate := inferInstanceAs (Decidable (_ ∨ _))

/-- The loop of `eshkol_arena_iter_scope_end`. -/
def escapes (arena : Arena) (vals : List TaggedValue) : Bool :=
  vals.any fun v => !decide v.Immediate && decide (v.data ≠ 0) && arenaTopScopeContains arena v.data

/-- `eshkol_arena_iter_scope_end`. -/
def arenaIterScopeEnd (arena : Arena) (vals : List TaggedValue) : Except Fault Arena :=
  match arena.scopes with
  | [] => .ok arena
  | _ :: _ =>
    if escapes arena vals then .ok (arenaCommitScope arena) else arenaPopScope arena

/-- `arena_reset`: the block that was made first is kept. -/
def arenaReset (arena : Arena) : Arena :=
  match arena.blocks.getLast? with
  | none => { arena with scopes := [] }
  | some first =>
    { arena with
      blocks := [{ first with used := 0 }]
      scopes := []
      totalAllocated := subtractSizes arena.totalAllocated arena.blocks.dropLast }

/-- `arena_merge_to_parent` of two different arenas: the destination and the emptied source. -/
def arenaMergeToParent (dest src : Arena) : Arena × Arena :=
  match src.blocks with
  | [] => (dest, src)
  | _ :: _ =>
    ({ dest with
        blocks := dest.blocks ++ src.blocks
        totalAllocated := word (dest.totalAllocated + src.totalAllocated) },
      { src with blocks := [], totalAllocated := 0 })

/-! ## Alignment -/

variable {x k size alignment used : ℕ} {b block : Block}

lemma word_of_lt (h : x < 2 ^ 64) : word x = x := Nat.mod_eq_of_lt h

/-- Clearing the low bits rounds down to a multiple of the alignment. -/
lemma clearLow_two_pow (hk : k ≤ 64) (hx : x < 2 ^ 64) : clearLow x (2 ^ k) = x / 2 ^ k * 2 ^ k := by
  have hpos : 0 < 2 ^ k := Nat.two_pow_pos k
  have hmask : 2 ^ 64 - 2 ^ k = 2 ^ 64 - (2 ^ k - 1 + 1) := by omega
  have hlow : 2 ^ k - 1 < 2 ^ 64 := by
    have : 2 ^ k ≤ 2 ^ 64 := Nat.pow_le_pow_right (by omega) hk
    omega
  rw [clearLow, hmask, ← Nat.shiftRight_eq_div_pow, ← Nat.shiftLeft_eq]
  refine Nat.eq_of_testBit_eq fun i => ?_
  rw [Nat.testBit_and, Nat.testBit_two_pow_sub_succ hlow, Nat.testBit_two_pow_sub_one,
    Nat.testBit_shiftLeft, Nat.testBit_shiftRight]
  rcases Nat.lt_or_ge i k with hik | hik
  · simp [hik, Nat.not_le.2 hik]
  · rw [show k + (i - k) = i by omega]
    rcases Nat.lt_or_ge i 64 with hi | hi
    · simp [hik, hi, Nat.not_lt.2 hik]
    · rw [Nat.testBit_lt_two_pow (hx.trans_le (Nat.pow_le_pow_right (by omega) hi))]
      simp

/-- The next multiple of the alignment. -/
def roundUp (x alignment : ℕ) : ℕ := (x + alignment - 1) / alignment * alignment

lemma le_roundUp (h : 0 < alignment) : x ≤ roundUp x alignment := by
  have := Nat.lt_div_mul_add (a := x + alignment - 1) h
  rw [roundUp]
  omega

lemma roundUp_lt (h : 0 < alignment) : roundUp x alignment < x + alignment := by
  have := Nat.div_mul_le_self (x + alignment - 1) alignment
  rw [roundUp]
  omega

lemma alignSize_eq (hk : k ≤ 64) (h : size + 2 ^ k ≤ 2 ^ 64) :
    alignSize size (2 ^ k) = roundUp size (2 ^ k) := by
  rw [alignSize, word_of_lt (by omega), clearLow_two_pow hk (by omega), roundUp]

/-- The offset of the next aligned address of a block. -/
lemma alignBlockOffset_eq (hk : k ≤ 64) (h : block.memory + used + 2 ^ k ≤ 2 ^ 64) :
    block.memory + alignBlockOffset block used (2 ^ k) = roundUp (block.memory + used) (2 ^ k) := by
  have hpos : 0 < 2 ^ k := Nat.two_pow_pos k
  have hle := le_roundUp (x := block.memory + used) hpos
  have hlt := roundUp_lt (x := block.memory + used) hpos
  have haddr : clearLow (word (word (block.memory + used) + 2 ^ k - 1)) (2 ^ k) =
      roundUp (block.memory + used) (2 ^ k) := by
    rw [word_of_lt (x := block.memory + used) (by omega), word_of_lt (by omega),
      clearLow_two_pow hk (by omega), roundUp]
  simp only [alignBlockOffset, haddr]
  rw [word, show roundUp (block.memory + used) (2 ^ k) + 2 ^ 64 - block.memory =
    roundUp (block.memory + used) (2 ^ k) - block.memory + 2 ^ 64 by omega, Nat.add_mod_right,
    Nat.mod_eq_of_lt (by omega)]
  omega

/-! ## Layout -/

/-- What a caller got: an address, the size and the alignment it asked for. -/
structure Allocation where
  start : ℕ
  size : ℕ
  alignment : ℕ

/-- No common byte. -/
def Allocation.Disjoint (x y : Allocation) : Prop :=
  x.start + x.size ≤ y.start ∨ y.start + y.size ≤ x.start

/-- The allocation lies in the used part of the block. -/
def Block.Holds (b : Block) (x : Allocation) : Prop :=
  b.memory ≤ x.start ∧ x.start + x.size ≤ b.memory + b.used

/-- The allocation lies in the used part of some block. -/
def InUse (blocks : List Block) (x : Allocation) : Prop := ∃ b ∈ blocks, b.Holds x

/-- The allocation was made after the scope was pushed. -/
def InSpan (s : Scope) (x : Allocation) : List Block → Prop
  | [] => False
  | b :: blocks =>
    if b.id = s.block then b.memory + s.used ≤ x.start ∧ x.start + x.size ≤ b.memory + b.used
    else b.Holds x ∨ InSpan s x blocks

/-- The blocks that popping the scope leaves. -/
def rewind (s : Scope) : List Block → List Block
  | [] => []
  | b :: blocks => if b.id = s.block then { b with used := s.used } :: blocks else rewind s blocks

/-- The scope's block is there and has not shrunk since. -/
def Marks (s : Scope) : List Block → Prop
  | [] => False
  | b :: blocks => if b.id = s.block then s.used ≤ b.used else Marks s blocks

/-- The allocations, one list for each scope and a last one for what came before all scopes. -/
def Laid : List Scope → List (List Allocation) → List Block → Prop
  | [], [frame], blocks => ∀ x ∈ frame, InUse blocks x
  | s :: scopes, frame :: frames, blocks =>
    (∀ x ∈ frame, InSpan s x blocks) ∧ Marks s blocks ∧ Laid scopes frames (rewind s blocks)
  | _, _, _ => False

/-- Blocks as `malloc` hands them out: below the middle of the address space and apart. -/
structure Separate (blocks : List Block) : Prop where
  ids : (blocks.map Block.id).Nodup
  apart : blocks.Pairwise fun b c => b.memory + b.size ≤ c.memory ∨ c.memory + c.size ≤ b.memory
  used_le : ∀ b ∈ blocks, b.used ≤ b.size
  bounded : ∀ b ∈ blocks, 0 < b.memory ∧ b.memory + b.size ≤ 2 ^ 63

/-- The arena holds exactly the allocations of the frames. -/
structure Valid (arena : Arena) (frames : List (List Allocation)) : Prop where
  nonempty : arena.blocks ≠ []
  separate : Separate arena.blocks
  laid : Laid arena.scopes frames arena.blocks
  total : arena.totalAllocated = (arena.blocks.map Block.size).sum
  disjoint : frames.flatten.Pairwise Allocation.Disjoint
  aligned : ∀ x ∈ frames.flatten, x.start % x.alignment = 0

variable {blocks blocks' : List Block} {s s' : Scope} {scopes : List Scope} {y z : Allocation}
  {frame : List Allocation} {frames : List (List Allocation)}

lemma inUse_of_inSpan (h : InSpan s y blocks) : InUse blocks y := by
  induction blocks with
  | nil => exact h.elim
  | cons b blocks ih =>
    rw [InSpan] at h
    split_ifs at h with hid
    · exact ⟨b, List.mem_cons_self, (Nat.le_add_right _ _).trans h.1, h.2⟩
    · rcases h with h | h
      · exact ⟨b, List.mem_cons_self, h⟩
      · obtain ⟨c, hc, hholds⟩ := ih h
        exact ⟨c, List.mem_cons_of_mem b hc, hholds⟩

lemma inUse_of_rewind (hmarks : Marks s blocks) (h : InUse (rewind s blocks) y) :
    InUse blocks y := by
  induction blocks with
  | nil => exact h
  | cons b blocks ih =>
    rw [Marks] at hmarks
    rw [rewind] at h
    split_ifs at h hmarks with hid
    · obtain ⟨c, hc, hholds⟩ := h
      rcases List.mem_cons.1 hc with rfl | hc
      · exact ⟨b, List.mem_cons_self, hholds.1, hholds.2.trans (Nat.add_le_add_left hmarks _)⟩
      · exact ⟨c, List.mem_cons_of_mem b hc, hholds⟩
    · obtain ⟨c, hc, hholds⟩ := ih hmarks h
      exact ⟨c, List.mem_cons_of_mem b hc, hholds⟩

/-- Every live allocation lies in the used part of a block. -/
lemma Laid.inUse (h : Laid scopes frames blocks) (hy : y ∈ frames.flatten) : InUse blocks y := by
  induction scopes generalizing frames blocks with
  | nil =>
    match frames, h with
    | [frame], h => exact h y (by simpa using hy)
  | cons s scopes ih =>
    match frames, h with
    | frame :: frames, h =>
      rw [List.flatten_cons, List.mem_append] at hy
      rcases hy with hy | hy
      · exact inUse_of_inSpan (h.1 y hy)
      · exact inUse_of_rewind h.2.1 (ih h.2.2 hy)

/-! ## Growth -/

/-- The head block or a new block takes one more allocation. -/
inductive Grows (x : Allocation) : List Block → List Block → Prop
  | bump {b : Block} {rest : List Block} {used : ℕ} (hstart : b.memory + b.used ≤ x.start)
      (hend : x.start + x.size ≤ b.memory + used) :
      Grows x (b :: rest) ({ b with used := used } :: rest)
  | extend {b : Block} {blocks : List Block} (hid : b.id ∉ blocks.map Block.id) (hholds : b.Holds x) :
      Grows x blocks (b :: blocks)

lemma Marks.mem (h : Marks s blocks) : s.block ∈ blocks.map Block.id := by
  induction blocks with
  | nil => exact h.elim
  | cons b blocks ih =>
    rw [Marks] at h
    rw [List.map_cons, List.mem_cons]
    split_ifs at h with hid
    · exact .inl hid.symm
    · exact .inr (ih h)

lemma Marks.ne (h : Marks s blocks) (hid : b.id ∉ blocks.map Block.id) : b.id ≠ s.block :=
  fun heq => hid (heq ▸ h.mem)

lemma Grows.ne_nil (h : Grows y blocks blocks') : blocks' ≠ [] := by
  cases h <;> exact List.cons_ne_nil _ _

lemma Grows.rewind_eq (h : Grows y blocks blocks') (hmarks : Marks s blocks) :
    rewind s blocks' = rewind s blocks := by
  cases h with
  | bump => simp only [rewind]
  | extend hid hholds => rw [rewind, if_neg (hmarks.ne hid)]

lemma Grows.marks (h : Grows y blocks blocks') (hmarks : Marks s blocks) : Marks s blocks' := by
  cases h with
  | bump hstart hend =>
    simp only [Marks] at hmarks ⊢
    split_ifs at hmarks ⊢
    · omega
    · exact hmarks
  | extend hid hholds => rwa [Marks, if_neg (hmarks.ne hid)]

lemma Grows.inUse (h : Grows y blocks blocks') (hz : InUse blocks z) : InUse blocks' z := by
  cases h with
  | bump hstart hend =>
    obtain ⟨c, hc, hlow, hhigh⟩ := hz
    rcases List.mem_cons.1 hc with rfl | hc
    · exact ⟨_, List.mem_cons_self, hlow, by simp only; omega⟩
    · exact ⟨c, List.mem_cons_of_mem _ hc, hlow, hhigh⟩
  | extend hid hholds =>
    obtain ⟨c, hc, hin⟩ := hz
    exact ⟨c, List.mem_cons_of_mem _ hc, hin⟩

lemma Grows.inUse_self (h : Grows y blocks blocks') : InUse blocks' y := by
  cases h with
  | bump hstart hend => exact ⟨_, List.mem_cons_self, by simp only; omega, hend⟩
  | extend hid hholds => exact ⟨_, List.mem_cons_self, hholds⟩

lemma Grows.inSpan (h : Grows y blocks blocks') (hmarks : Marks s blocks)
    (hz : InSpan s z blocks) : InSpan s z blocks' := by
  cases h with
  | bump hstart hend =>
    simp only [InSpan, Block.Holds] at hz ⊢
    split_ifs at hz ⊢
    · omega
    · exact hz.imp_left fun hb => ⟨hb.1, by omega⟩
  | extend hid hholds =>
    rw [InSpan, if_neg (hmarks.ne hid)]
    exact .inr hz

lemma Grows.inSpan_self (h : Grows y blocks blocks') (hmarks : Marks s blocks) :
    InSpan s y blocks' := by
  cases h with
  | bump hstart hend =>
    simp only [Marks, InSpan, Block.Holds] at hmarks ⊢
    split_ifs at hmarks ⊢
    · omega
    · exact .inl ⟨by omega, hend⟩
  | extend hid hholds =>
    rw [InSpan, if_neg (hmarks.ne hid)]
    exact .inl hholds

/-- A new allocation belongs to the innermost scope. -/
lemma Laid.grow (h : Laid scopes (frame :: frames) blocks) (hgrow : Grows y blocks blocks') :
    Laid scopes ((y :: frame) :: frames) blocks' := by
  match scopes, frames, h with
  | [], [], h =>
    rw [Laid, List.forall_mem_cons]
    exact ⟨hgrow.inUse_self, fun z hz => hgrow.inUse (h z hz)⟩
  | s :: scopes, frames, h =>
    rw [Laid, List.forall_mem_cons, hgrow.rewind_eq h.2.1]
    exact ⟨⟨hgrow.inSpan_self h.2.1, fun z hz => hgrow.inSpan h.2.1 (h.1 z hz)⟩,
      hgrow.marks h.2.1, h.2.2⟩

/-! ## Separate blocks -/

lemma Block.Holds.disjoint {c : Block} (hy : b.Holds y) (hz : c.Holds z) (hb : b.used ≤ b.size)
    (hc : c.used ≤ c.size)
    (hapart : b.memory + b.size ≤ c.memory ∨ c.memory + c.size ≤ b.memory) : y.Disjoint z := by
  obtain ⟨hylow, hyhigh⟩ := hy
  obtain ⟨hzlow, hzhigh⟩ := hz
  unfold Allocation.Disjoint
  omega

/-- A new allocation has no byte in common with the older ones. -/
lemma Grows.disjoint (h : Grows y blocks blocks') (hsep : Separate blocks')
    (hz : InUse blocks z) : y.Disjoint z := by
  obtain ⟨c, hc, hin⟩ := hz
  cases h with
  | @bump b rest used hstart hend =>
    rcases List.mem_cons.1 hc with rfl | hc
    · exact .inr (hin.2.trans hstart)
    · have hhead : Block.Holds { b with used := used } y := ⟨by simp only; omega, hend⟩
      exact hhead.disjoint hin (hsep.used_le _ List.mem_cons_self)
        (hsep.used_le c (List.mem_cons_of_mem _ hc)) ((List.pairwise_cons.1 hsep.apart).1 c hc)
  | extend hid hholds =>
    exact hholds.disjoint hin (hsep.used_le _ List.mem_cons_self)
      (hsep.used_le c (List.mem_cons_of_mem _ hc)) ((List.pairwise_cons.1 hsep.apart).1 c hc)

/-- The bytes of separate blocks fit below the middle of the address space. -/
lemma Separate.sum_size_le (h : Separate blocks) : (blocks.map Block.size).sum ≤ 2 ^ 63 := by
  have hset : ∀ l : List Block, (∀ b ∈ l, b.memory + b.size ≤ 2 ^ 63) →
      (l.Pairwise fun b c => b.memory + b.size ≤ c.memory ∨ c.memory + c.size ≤ b.memory) →
      ∃ S : Finset ℕ, S.card = (l.map Block.size).sum ∧
        ∀ n ∈ S, n < 2 ^ 63 ∧ ∃ b ∈ l, b.memory ≤ n ∧ n < b.memory + b.size := by
    intro l
    induction l with
    | nil => exact fun _ _ => ⟨∅, rfl, by simp⟩
    | cons b l ih =>
      intro hbound hapart
      obtain ⟨S, hcard, hS⟩ := ih (fun c hc => hbound c (List.mem_cons_of_mem b hc))
        (List.pairwise_cons.1 hapart).2
      have hdisj : Disjoint (Finset.Ico b.memory (b.memory + b.size)) S := by
        rw [Finset.disjoint_left]
        intro n hn hnS
        obtain ⟨-, c, hc, hlow, hhigh⟩ := hS n hnS
        have := (List.pairwise_cons.1 hapart).1 c hc
        rw [Finset.mem_Ico] at hn
        omega
      refine ⟨Finset.Ico b.memory (b.memory + b.size) ∪ S, ?_, fun n hn => ?_⟩
      · rw [Finset.card_union_of_disjoint hdisj, hcard, Nat.card_Ico, List.map_cons, List.sum_cons]
        omega
      · rcases Finset.mem_union.1 hn with hn | hn
        · rw [Finset.mem_Ico] at hn
          have := hbound b List.mem_cons_self
          exact ⟨by omega, b, List.mem_cons_self, hn⟩
        · obtain ⟨hlt, c, hc, hin⟩ := hS n hn
          exact ⟨hlt, c, List.mem_cons_of_mem b hc, hin⟩
  obtain ⟨S, hcard, hS⟩ := hset blocks (fun b hb => (h.bounded b hb).2) h.apart
  have hsub : S ⊆ Finset.range (2 ^ 63) := fun n hn => Finset.mem_range.2 (hS n hn).1
  rw [← hcard]
  exact (Finset.card_le_card hsub).trans_eq (Finset.card_range _)

lemma Separate.tail (h : Separate (b :: blocks)) : Separate blocks where
  ids := (List.nodup_cons.1 h.ids).2
  apart := (List.pairwise_cons.1 h.apart).2
  used_le c hc := h.used_le c (List.mem_cons_of_mem b hc)
  bounded c hc := h.bounded c (List.mem_cons_of_mem b hc)

/-- Only the used part of the head block changes. -/
lemma Separate.setUsed (h : Separate (b :: blocks)) (hused : used ≤ b.size) :
    Separate ({ b with used := used } :: blocks) where
  ids := h.ids
  apart := List.pairwise_cons.2 (List.pairwise_cons.1 h.apart)
  used_le c hc := by
    rcases List.mem_cons.1 hc with rfl | hc
    · exact hused
    · exact h.used_le c (List.mem_cons_of_mem b hc)
  bounded c hc := by
    rcases List.mem_cons.1 hc with rfl | hc
    · exact h.bounded b List.mem_cons_self
    · exact h.bounded c (List.mem_cons_of_mem b hc)

lemma Separate.rewind (h : Separate blocks) (hmarks : Marks s blocks) :
    Separate (rewind s blocks) := by
  induction blocks with
  | nil => exact h
  | cons b blocks ih =>
    rw [Marks] at hmarks
    rw [ArenaCore.rewind]
    split_ifs at hmarks ⊢
    · exact h.setUsed (hmarks.trans (h.used_le b List.mem_cons_self))
    · exact ih h.tail hmarks

/-! ## Popping -/

/-- The walk over the blocks finds that of the scope. -/
lemma Marks.dropWhile (h : Marks s blocks) :
    ∃ b rest, blocks.dropWhile (fun b => b.id ≠ s.block) = b :: rest ∧
      rewind s blocks = { b with used := s.used } :: rest := by
  induction blocks with
  | nil => exact h.elim
  | cons b blocks ih =>
    rw [Marks] at h
    rw [rewind]
    split_ifs at h ⊢ with hid
    · exact ⟨b, blocks, List.dropWhile_cons_of_neg (by simpa using hid), rfl⟩
    · obtain ⟨c, rest, hdrop, hrewind⟩ := ih h
      exact ⟨c, rest, by rw [List.dropWhile_cons_of_pos (by simpa using hid), hdrop], hrewind⟩

lemma subtractSizes_eq {freed : List Block} {kept : ℕ}
    (h : kept + (freed.map Block.size).sum < 2 ^ 64) :
    subtractSizes (kept + (freed.map Block.size).sum) freed = kept := by
  induction freed with
  | nil => rfl
  | cons b freed ih =>
    rw [List.map_cons, List.sum_cons] at h ⊢
    have hstep : word (kept + (b.size + (freed.map Block.size).sum) + 2 ^ 64 - b.size) =
        kept + (freed.map Block.size).sum := by
      rw [word, show kept + (b.size + (freed.map Block.size).sum) + 2 ^ 64 - b.size =
        kept + (freed.map Block.size).sum + 2 ^ 64 by omega, Nat.add_mod_right,
        Nat.mod_eq_of_lt (by omega)]
    rw [subtractSizes, List.foldl_cons, hstep]
    exact ih (by omega)

/-- Popping leaves the rewound blocks. -/
lemma Valid.popScope {arena : Arena} (h : Valid arena (frame :: frames))
    (hscopes : arena.scopes = s :: scopes) :
    ∃ arena', arenaPopScope arena = .ok arena' ∧ arena'.blocks = rewind s arena.blocks ∧
      arena'.scopes = scopes ∧ Valid arena' frames := by
  have hlaid := h.laid
  rw [hscopes] at hlaid
  obtain ⟨-, hmarks, hrest⟩ := hlaid
  obtain ⟨b, rest, hdrop, hrewind⟩ := hmarks.dropWhile
  have hsum : (arena.blocks.map Block.size).sum = ((b :: rest).map Block.size).sum +
      ((arena.blocks.takeWhile fun b => b.id ≠ s.block).map Block.size).sum := by
    rw [← hdrop, Nat.add_comm, ← List.sum_append, ← List.map_append, List.takeWhile_append_dropWhile]
  have hle := h.separate.sum_size_le
  refine ⟨{ arena with
      blocks := { b with used := s.used } :: rest
      scopes := scopes
      totalAllocated := subtractSizes arena.totalAllocated
        (arena.blocks.takeWhile fun b => b.id ≠ s.block) }, ?_, hrewind.symm, rfl, ?_⟩
  · simp only [arenaPopScope, hscopes, hdrop]
  · constructor
    · exact List.cons_ne_nil _ _
    · exact hrewind ▸ h.separate.rewind hmarks
    · exact hrewind ▸ hrest
    · simp only [h.total, hsum]
      exact subtractSizes_eq (by omega)
    · exact (List.pairwise_append.1 h.disjoint).2.1
    · exact fun x hx => h.aligned x (List.mem_append_right _ hx)

/-- The byte at the address belongs to the used part of some block. -/
def ByteInUse (blocks : List Block) (n : ℕ) : Prop :=
  ∃ b ∈ blocks, b.memory ≤ n ∧ n < b.memory + b.used

lemma byteInUse_of_rewind {n : ℕ} (hmarks : Marks s blocks) (h : ByteInUse (rewind s blocks) n) :
    ByteInUse blocks n := by
  obtain ⟨c, hc, hlow, hhigh⟩ := h
  obtain ⟨b, hb, hblow, hbhigh⟩ := inUse_of_rewind (y := ⟨n, 1, 1⟩) hmarks ⟨c, hc, hlow, hhigh⟩
  exact ⟨b, hb, hblow, hbhigh⟩

/-- Popping a scope frees every byte that was allocated in it. -/
lemma InSpan.not_byteInUse {n : ℕ} (h : InSpan s y blocks) (hsep : Separate blocks)
    (hmarks : Marks s blocks) (hlow : y.start ≤ n) (hhigh : n < y.start + y.size) :
    ¬ByteInUse (rewind s blocks) n := by
  induction blocks with
  | nil => exact h.elim
  | cons b blocks ih =>
    have hused := hsep.used_le b List.mem_cons_self
    have hlater : ByteInUse blocks n → b.memory + b.size ≤ n ∨ n < b.memory := by
      rintro ⟨c, hc, hclow, hchigh⟩
      have := (List.pairwise_cons.1 hsep.apart).1 c hc
      have := hsep.used_le c (List.mem_cons_of_mem b hc)
      omega
    rw [InSpan] at h
    rw [Marks] at hmarks
    rw [rewind]
    split_ifs at h hmarks ⊢ with hid
    · rintro ⟨c, hc, hclow, hchigh⟩
      rcases List.mem_cons.1 hc with rfl | hc
      · simp only at hchigh
        omega
      · have := hlater ⟨c, hc, hclow, hchigh⟩
        omega
    · rcases h with ⟨hylow, hyhigh⟩ | h
      · -- the block of the allocation is freed as a whole
        intro hin
        have := hlater (byteInUse_of_rewind hmarks hin)
        omega
      · exact ih h hsep.tail hmarks

/-! ## Committing -/

lemma mem_map_id_of_rewind {n : ℕ} (h : n ∈ (rewind s blocks).map Block.id) :
    n ∈ blocks.map Block.id := by
  induction blocks with
  | nil => exact h
  | cons b blocks ih =>
    rw [rewind] at h
    split_ifs at h with hid
    · exact h
    · exact List.mem_cons_of_mem _ (ih h)

/-- Without the mark of `s`, what was allocated since belongs to the scope `s'` around it. -/
lemma Marks.commit (hids : (blocks.map Block.id).Nodup) (hmarks : Marks s blocks)
    (hmarks' : Marks s' (rewind s blocks)) :
    Marks s' blocks ∧ rewind s' (rewind s blocks) = rewind s' blocks ∧
      ∀ y, InSpan s y blocks ∨ InSpan s' y (rewind s blocks) → InSpan s' y blocks := by
  induction blocks with
  | nil => exact hmarks.elim
  | cons b blocks ih =>
    by_cases hid : b.id = s.block
    · -- both scopes can have been pushed in this block, `s'` before `s`
      rw [rewind, if_pos hid] at hmarks' ⊢
      rw [Marks, if_pos hid] at hmarks
      simp only [Marks, rewind, InSpan, Block.Holds, if_pos hid] at hmarks' ⊢
      by_cases hid' : b.id = s'.block
      · simp only [if_pos hid'] at hmarks' ⊢
        exact ⟨by omega, trivial, fun y hy => by omega⟩
      · simp only [if_neg hid'] at hmarks' ⊢
        refine ⟨hmarks', trivial, fun y hy => ?_⟩
        rcases hy with hy | hy
        · exact .inl ⟨by omega, hy.2⟩
        · exact hy.imp_left fun hb => ⟨hb.1, by omega⟩
    · rw [rewind, if_neg hid] at hmarks' ⊢
      rw [Marks, if_neg hid] at hmarks
      have hmem := mem_map_id_of_rewind hmarks'.mem
      have hne : b.id ≠ s'.block := fun heq => (List.nodup_cons.1 hids).1 (heq ▸ hmem)
      obtain ⟨hm, hrewind, hspan⟩ := ih (List.nodup_cons.1 hids).2 hmarks hmarks'
      simp only [Marks, InSpan, rewind, if_neg hid, if_neg hne]
      refine ⟨hm, hrewind, fun y hy => ?_⟩
      rcases hy with (hb | hy) | hy
      · exact .inl hb
      · exact .inr (hspan y (.inl hy))
      · exact .inr (hspan y (.inr hy))

lemma Laid.commit {inner outer : List Allocation} (hids : (blocks.map Block.id).Nodup)
    (h : Laid (s :: scopes) (inner :: outer :: frames) blocks) :
    Laid scopes ((inner ++ outer) :: frames) blocks := by
  obtain ⟨hinner, hmarks, hrest⟩ := h
  match scopes, frames, hrest with
  | [], [], hrest =>
    intro y hy
    rcases List.mem_append.1 hy with hy | hy
    · exact inUse_of_inSpan (hinner y hy)
    · exact inUse_of_rewind hmarks (hrest y hy)
  | s' :: scopes, frames, hrest =>
    obtain ⟨hm, hrewind, hspan⟩ := hmarks.commit hids hrest.2.1
    refine ⟨fun y hy => ?_, hm, hrewind ▸ hrest.2.2⟩
    rcases List.mem_append.1 hy with hy | hy
    · exact hspan y (.inl (hinner y hy))
    · exact hspan y (.inr (hrest.1 y hy))

lemma Valid.commitScope {arena : Arena} {inner outer : List Allocation}
    (h : Valid arena (inner :: outer :: frames)) :
    Valid (arenaCommitScope arena) ((inner ++ outer) :: frames) := by
  have hflatten : ((inner ++ outer) :: frames).flatten = (inner :: outer :: frames).flatten := by
    simp
  constructor
  · exact h.nonempty
  · exact h.separate
  · match hscopes : arena.scopes, h.laid with
    | s :: scopes, hlaid =>
      simp only [arenaCommitScope, hscopes, List.tail_cons]
      exact hlaid.commit h.separate.ids
  · exact h.total
  · exact hflatten ▸ h.disjoint
  · exact hflatten ▸ h.aligned

/-! ## The end of an iteration -/

/-- A pointer into an allocation of the innermost scope is noticed. -/
lemma InSpan.spanContains {p : ℕ} (h : InSpan s y blocks) (hlow : y.start ≤ p)
    (hhigh : p < y.start + y.size) : spanContains s p blocks = true := by
  induction blocks with
  | nil => exact h.elim
  | cons b blocks ih =>
    rw [InSpan] at h
    rw [ArenaCore.spanContains]
    split_ifs at h ⊢ with hid hin
    · rw [Bool.and_eq_true, decide_eq_true_eq, decide_eq_true_eq]
      omega
    · rfl
    · rcases h with ⟨hblow, hbhigh⟩ | h
      · omega
      · exact ih h

/-! ## Reset and merge -/

lemma Valid.reset {arena : Arena} (h : Valid arena frames) : Valid (arenaReset arena) [[]] := by
  obtain ⟨init, first, hinit⟩ : ∃ init first, arena.blocks = init ++ [first] :=
    ⟨_, _, (List.dropLast_append_getLast h.nonempty).symm⟩
  have hmem : first ∈ arena.blocks := by simp [hinit]
  have hreset : arenaReset arena = { arena with
      blocks := [{ first with used := 0 }]
      scopes := []
      totalAllocated := subtractSizes arena.totalAllocated init } := by
    simp [arenaReset, hinit]
  have hsum : arena.totalAllocated = first.size + (init.map Block.size).sum := by
    rw [h.total, hinit, List.map_append, List.sum_append, Nat.add_comm]
    rfl
  have hle := h.separate.sum_size_le
  rw [← h.total, hsum] at hle
  rw [hreset]
  constructor
  · exact List.cons_ne_nil _ _
  · constructor
    · exact List.nodup_singleton _
    · exact List.pairwise_singleton _ _
    · exact fun b hb => (List.mem_singleton.1 hb) ▸ Nat.zero_le first.size
    · exact fun b hb => (List.mem_singleton.1 hb) ▸ h.separate.bounded first hmem
  · exact fun x hx => absurd hx List.not_mem_nil
  · simp only [hsum]
    exact subtractSizes_eq (by omega)
  · exact List.Pairwise.nil
  · exact fun x hx => absurd hx List.not_mem_nil

/-- The blocks of two arenas that are alive at the same time. -/
def Apart (dest src : Arena) : Prop :=
  ∀ b ∈ dest.blocks, ∀ c ∈ src.blocks, b.id ≠ c.id ∧
    (b.memory + b.size ≤ c.memory ∨ c.memory + c.size ≤ b.memory)

/-- What is merged counts as allocated before all scopes. -/
def appendBase (extra : List Allocation) : List (List Allocation) → List (List Allocation)
  | [] => []
  | [frame] => [frame ++ extra]
  | frame :: frame' :: frames => frame :: appendBase extra (frame' :: frames)

lemma Marks.append (h : Marks s blocks) (more : List Block) :
    Marks s (blocks ++ more) ∧ rewind s (blocks ++ more) = rewind s blocks ++ more := by
  induction blocks with
  | nil => exact h.elim
  | cons b blocks ih =>
    rw [Marks] at h
    simp only [List.cons_append, Marks, rewind]
    split_ifs at h ⊢
    · exact ⟨h, rfl⟩
    · exact ih h

lemma InSpan.append (h : InSpan s y blocks) (more : List Block) : InSpan s y (blocks ++ more) := by
  induction blocks with
  | nil => exact h.elim
  | cons b blocks ih =>
    rw [InSpan] at h
    rw [List.cons_append, InSpan]
    split_ifs at h ⊢
    · exact h
    · exact h.imp_right ih

lemma Laid.merge {more : List Block} {extra : List Allocation} (h : Laid scopes frames blocks)
    (hextra : ∀ x ∈ extra, InUse more x) :
    Laid scopes (appendBase extra frames) (blocks ++ more) := by
  induction scopes generalizing frames blocks with
  | nil =>
    match frames, h with
    | [frame], h =>
      intro y hy
      rcases List.mem_append.1 hy with hy | hy
      · obtain ⟨b, hb, hholds⟩ := h y hy
        exact ⟨b, List.mem_append_left _ hb, hholds⟩
      · obtain ⟨b, hb, hholds⟩ := hextra y hy
        exact ⟨b, List.mem_append_right _ hb, hholds⟩
  | cons s scopes ih =>
    match frames, h with
    | frame :: frames, h =>
      obtain ⟨hmarks, hrewind⟩ := h.2.1.append more
      have hrest := ih h.2.2
      rw [← hrewind] at hrest
      match frames, hrest with
      | frame' :: frames, hrest =>
        exact ⟨fun y hy => (h.1 y hy).append more, hmarks, hrest⟩
      | [], hrest => cases scopes <;> exact hrest.elim

lemma flatten_appendBase (extra : List Allocation) (h : frames ≠ []) :
    (appendBase extra frames).flatten = frames.flatten ++ extra := by
  induction frames with
  | nil => exact absurd rfl h
  | cons frame frames ih =>
    match frames, ih with
    | [], _ => simp [appendBase]
    | frame' :: frames, ih =>
      rw [appendBase, List.flatten_cons, ih (List.cons_ne_nil _ _), ← List.append_assoc,
        ← List.flatten_cons]

lemma Laid.ne_nil (h : Laid scopes frames blocks) : frames ≠ [] := by
  rintro rfl
  cases scopes <;> exact h.elim

lemma Separate.append {dest src : Arena} (hdest : Separate dest.blocks) (hsrc : Separate src.blocks)
    (hapart : Apart dest src) : Separate (dest.blocks ++ src.blocks) where
  ids := by
    rw [List.map_append, List.nodup_append]
    refine ⟨hdest.ids, hsrc.ids, fun n hn m hm => ?_⟩
    obtain ⟨b, hb, rfl⟩ := List.mem_map.1 hn
    obtain ⟨c, hc, rfl⟩ := List.mem_map.1 hm
    exact (hapart b hb c hc).1
  apart := List.pairwise_append.2 ⟨hdest.apart, hsrc.apart, fun b hb c hc => (hapart b hb c hc).2⟩
  used_le b hb := (List.mem_append.1 hb).elim (hdest.used_le b) (hsrc.used_le b)
  bounded b hb := (List.mem_append.1 hb).elim (hdest.bounded b) (hsrc.bounded b)

lemma Valid.merge {dest src : Arena} {frames' : List (List Allocation)} (h : Valid dest frames)
    (h' : Valid src frames') (hapart : Apart dest src) :
    Valid (arenaMergeToParent dest src).1 (appendBase frames'.flatten frames) := by
  have hsep := h.separate.append h'.separate hapart
  have hle := hsep.sum_size_le
  have hmerge : (arenaMergeToParent dest src).1 = { dest with
      blocks := dest.blocks ++ src.blocks
      totalAllocated := word (dest.totalAllocated + src.totalAllocated) } := by
    unfold arenaMergeToParent
    cases hblocks : src.blocks with
    | nil => exact absurd hblocks h'.nonempty
    | cons b rest => rfl
  have hflatten := flatten_appendBase frames'.flatten h.laid.ne_nil
  rw [hmerge]
  constructor
  · exact List.append_ne_nil_of_left_ne_nil h.nonempty _
  · exact hsep
  · exact h.laid.merge fun x hx => h'.laid.inUse hx
  · simp only [h.total, h'.total, List.map_append, List.sum_append] at hle ⊢
    rw [word_of_lt (by omega)]
  · rw [hflatten, List.pairwise_append]
    refine ⟨h.disjoint, h'.disjoint, fun x hx y hy => ?_⟩
    obtain ⟨b, hb, hxb⟩ := h.laid.inUse hx
    obtain ⟨c, hc, hyc⟩ := h'.laid.inUse hy
    exact hxb.disjoint hyc (h.separate.used_le b hb) (h'.separate.used_le c hc) (hapart b hb c hc).2
  · rw [hflatten]
    exact fun x hx => (List.mem_append.1 hx).elim (h.aligned x) (h'.aligned x)

/-! ## Allocation -/

/-- What `malloc` promises: memory and a record that no live block uses, in the lower half. -/
def FreshMalloc (blocks : List Block) (malloc : Malloc) : Prop :=
  ∀ n id memory, malloc n = some (id, memory) → id ∉ blocks.map Block.id ∧ 0 < memory ∧
    memory + n ≤ 2 ^ 63 ∧ ∀ b ∈ blocks, memory + n ≤ b.memory ∨ b.memory + b.size ≤ memory

/-- The alignment that a request stands for. -/
def effectiveAlignment (alignment : ℕ) : ℕ := if alignment = 0 then 8 else alignment

/-- One more allocation of the arena, as far as its other fields go. -/
structure Extended (x : Allocation) (arena arena' : Arena) : Prop where
  grows : Grows x arena.blocks arena'.blocks
  separate : Separate arena'.blocks
  scopes : arena'.scopes = arena.scopes
  isBounded : arena'.bounded = arena.bounded
  total : arena'.totalAllocated + (arena.blocks.map Block.size).sum =
    arena.totalAllocated + (arena'.blocks.map Block.size).sum
  blocks : arena.bounded = true → arena'.blocks.length = arena.blocks.length

lemma Extended.of_bump {arena : Arena} {rest : List Block} {p alignedSize align : ℕ}
    (hblocks : arena.blocks = block :: rest) (hsep : Separate arena.blocks)
    (hp : block.memory + block.used ≤ p) (hle : size ≤ alignedSize)
    (hend : p - block.memory + alignedSize ≤ block.size) :
    Extended ⟨p, size, align⟩ arena { arena with
      blocks := { block with used := p - block.memory + alignedSize } :: rest } := by
  rw [hblocks] at hsep
  constructor
  · rw [hblocks]
    exact .bump hp (by simp only; omega)
  · exact hsep.setUsed hend
  · rfl
  · rfl
  · simp [hblocks]
  · simp [hblocks]

lemma Extended.of_new {arena : Arena} {id memory n p alignedSize align : ℕ}
    (hsep : Separate arena.blocks)
    (htotal : arena.totalAllocated = (arena.blocks.map Block.size).sum)
    (hfresh : id ∉ arena.blocks.map Block.id ∧ 0 < memory ∧ memory + n ≤ 2 ^ 63 ∧
      ∀ b ∈ arena.blocks, memory + n ≤ b.memory ∨ b.memory + b.size ≤ memory)
    (hbounded : arena.bounded = false) (hp : memory ≤ p) (hle : size ≤ alignedSize)
    (hend : p - memory + alignedSize ≤ n) :
    Extended ⟨p, size, align⟩ arena { arena with
      blocks := ⟨id, memory, n, p - memory + alignedSize⟩ :: arena.blocks
      totalAllocated := word (arena.totalAllocated + n) } := by
  obtain ⟨hid, hpos, hhalf, hapart⟩ := hfresh
  have hsep' : Separate (⟨id, memory, n, p - memory + alignedSize⟩ :: arena.blocks) := by
    constructor
    · exact List.nodup_cons.2 ⟨hid, hsep.ids⟩
    · exact List.pairwise_cons.2 ⟨hapart, hsep.apart⟩
    · exact List.forall_mem_cons.2 ⟨hend, hsep.used_le⟩
    · exact List.forall_mem_cons.2 ⟨⟨hpos, hhalf⟩, hsep.bounded⟩
  have hsum := hsep'.sum_size_le
  rw [List.map_cons, List.sum_cons] at hsum
  constructor
  · exact .extend hid ⟨hp, by simp only; omega⟩
  · exact hsep'
  · rfl
  · rfl
  · simp only [List.map_cons, List.sum_cons, htotal]
    rw [word_of_lt (by omega)]
    omega
  · exact fun h => absurd h (by simp [hbounded])

lemma allocateFromBlock_cases {arena : Arena} {malloc : Malloc} {alignedSize : ℕ}
    (hnonempty : arena.blocks ≠ []) (hsep : Separate arena.blocks)
    (htotal : arena.totalAllocated = (arena.blocks.map Block.size).sum)
    (hmalloc : FreshMalloc arena.blocks malloc) (hk : k ≤ 64) (hle : size ≤ alignedSize)
    (halign : 2 ^ k ≤ 2 ^ 62) (hsize : alignedSize ≤ 2 ^ 62) :
    allocateFromBlock arena alignedSize (2 ^ k) malloc = .ok (arena, none) ∨
    ∃ arena' p, allocateFromBlock arena alignedSize (2 ^ k) malloc = .ok (arena', some p) ∧
      p % 2 ^ k = 0 ∧ Extended ⟨p, size, 2 ^ k⟩ arena arena' := by
  have hpos : 0 < 2 ^ k := Nat.two_pow_pos k
  obtain ⟨block, rest, hblocks⟩ := List.exists_cons_of_ne_nil hnonempty
  have hmem : block ∈ arena.blocks := hblocks ▸ List.mem_cons_self
  have hbounds := hsep.bounded block hmem
  have hused := hsep.used_le block hmem
  have hoffset : block.memory + alignBlockOffset block block.used (2 ^ k) =
      roundUp (block.memory + block.used) (2 ^ k) := alignBlockOffset_eq hk (by omega)
  have hlow := le_roundUp (x := block.memory + block.used) hpos
  have hhigh := roundUp_lt (x := block.memory + block.used) hpos
  have hmod : roundUp (block.memory + block.used) (2 ^ k) % 2 ^ k = 0 := Nat.mul_mod_left _ _
  simp only [allocateFromBlock, hblocks]
  generalize alignBlockOffset block block.used (2 ^ k) = offset at hoffset ⊢
  by_cases hfull : word (offset + alignedSize) > block.size
  · rw [if_pos hfull]
    by_cases hbounded : arena.bounded = true
    · rw [if_pos hbounded]
      exact .inl rfl
    · rw [if_neg hbounded]
      have hmin : alignedSize + 2 ^ k - 1 ≤
          if word (alignedSize + 2 ^ k - 1) > arena.defaultBlockSize
          then word (alignedSize + 2 ^ k - 1) else arena.defaultBlockSize := by
        rw [word_of_lt (by omega)]
        split <;> omega
      generalize (if word (alignedSize + 2 ^ k - 1) > arena.defaultBlockSize
        then word (alignedSize + 2 ^ k - 1) else arena.defaultBlockSize) = n at hmin ⊢
      cases hanswer : malloc n with
      | none => exact .inl rfl
      | some answer =>
        obtain ⟨id, memory⟩ := answer
        have hfresh := hmalloc n id memory hanswer
        have hroom : Block.memory ⟨id, memory, n, 0⟩ + 0 + 2 ^ k ≤ 2 ^ 64 := by
          simp only
          omega
        have hoffset' := alignBlockOffset_eq hk hroom
        have hlow' := le_roundUp (x := memory + 0) hpos
        have hhigh' := roundUp_lt (x := memory + 0) hpos
        have hmod' : roundUp (memory + 0) (2 ^ k) % 2 ^ k = 0 := Nat.mul_mod_left _ _
        simp only at hoffset' ⊢
        generalize alignBlockOffset ⟨id, memory, n, 0⟩ 0 (2 ^ k) = offset' at hoffset' ⊢
        refine .inr ⟨_, _, rfl, hoffset' ▸ hmod', ?_⟩
        have hp : memory ≤ memory + offset' := Nat.le_add_right memory offset'
        have hend : memory + offset' - memory + alignedSize ≤ n := by omega
        have hext : Extended ⟨memory + offset', size, 2 ^ k⟩ arena _ :=
          Extended.of_new hsep htotal hfresh (by simpa using hbounded) hp hle hend
        rw [Nat.add_sub_cancel_left, hblocks] at hext
        rwa [word_of_lt (x := offset' + alignedSize) (by omega)]
  · rw [if_neg hfull]
    refine .inr ⟨_, _, rfl, hoffset ▸ hmod, ?_⟩
    rw [word_of_lt (by omega)] at hfull ⊢
    have hp : block.memory + block.used ≤ block.memory + offset := by omega
    have hend : block.memory + offset - block.memory + alignedSize ≤ block.size := by omega
    have hext : Extended ⟨block.memory + offset, size, 2 ^ k⟩ arena _ :=
      Extended.of_bump hblocks hsep hp hle hend
    rwa [Nat.add_sub_cancel_left] at hext

/-- A request leaves the arena as it was or makes one more allocation. -/
lemma Valid.allocate_cases {arena : Arena} {malloc : Malloc} (h : Valid arena frames)
    (hsize : size + effectiveAlignment alignment ≤ 2 ^ 62)
    (hmalloc : FreshMalloc arena.blocks malloc) :
    arenaAllocateAligned arena size alignment malloc = .ok (arena, none) ∨
    ∃ arena' p, arenaAllocateAligned arena size alignment malloc = .ok (arena', some p) ∧
      p % effectiveAlignment alignment = 0 ∧
      Extended ⟨p, size, effectiveAlignment alignment⟩ arena arena' := by
  unfold arenaAllocateAligned
  rw [← effectiveAlignment]
  generalize hgen : effectiveAlignment alignment = align at hsize ⊢
  have hne : align ≠ 0 := by
    rw [← hgen, effectiveAlignment]
    split <;> omega
  simp only
  by_cases h0 : size = 0
  · exact .inl (if_pos h0)
  by_cases hpow : align &&& (align - 1) ≠ 0
  · exact .inl (by rw [if_neg h0, if_pos hpow])
  obtain ⟨k, rfl⟩ := (Nat.and_sub_one_eq_zero_iff_isPowerOfTwo hne).1 (not_not.1 hpow)
  have hk : k ≤ 64 := by
    by_contra hlt
    have : 2 ^ 65 ≤ 2 ^ k := Nat.pow_le_pow_right (by omega) (by omega)
    omega
  have hpos : 0 < 2 ^ k := Nat.two_pow_pos k
  have hlow := le_roundUp (x := size) hpos
  have hhigh := roundUp_lt (x := size) hpos
  rw [if_neg h0, if_neg hpow, if_neg (by rw [sizeMax]; omega), alignSize_eq hk (by omega),
    if_neg (by rw [sizeMax]; omega)]
  exact allocateFromBlock_cases h.nonempty h.separate h.total hmalloc hk hlow (by omega) (by omega)

lemma Extended.valid {arena arena' : Arena} {x : Allocation} (h : Extended x arena arena')
    (hvalid : Valid arena (frame :: frames)) (hx : x.start % x.alignment = 0) :
    Valid arena' ((x :: frame) :: frames) := by
  constructor
  · exact h.grows.ne_nil
  · exact h.separate
  · rw [h.scopes]
    exact hvalid.laid.grow h.grows
  · have := h.total
    have := hvalid.total
    omega
  · rw [List.flatten_cons, List.cons_append, ← List.flatten_cons, List.pairwise_cons]
    exact ⟨fun y hy => h.grows.disjoint h.separate (hvalid.laid.inUse hy), hvalid.disjoint⟩
  · rw [List.flatten_cons, List.cons_append, ← List.flatten_cons, List.forall_mem_cons]
    exact ⟨hx, hvalid.aligned⟩

lemma Valid.pushScope {arena : Arena} (h : Valid arena frames) :
    ∃ arena', arenaPushScope arena = .ok arena' ∧ Valid arena' ([] :: frames) := by
  obtain ⟨b, rest, hblocks⟩ := List.exists_cons_of_ne_nil h.nonempty
  refine ⟨{ arena with scopes := ⟨b.id, b.used⟩ :: arena.scopes }, ?_, ?_⟩
  · simp only [arenaPushScope, hblocks]
  · have hrewind : rewind ⟨b.id, b.used⟩ arena.blocks = arena.blocks := by
      rw [hblocks, rewind, if_pos rfl]
    have hmarks : Marks ⟨b.id, b.used⟩ arena.blocks := by
      rw [hblocks, Marks, if_pos rfl]
    exact ⟨h.nonempty, h.separate, ⟨fun x hx => absurd hx List.not_mem_nil, hmarks,
      hrewind.symm ▸ h.laid⟩, h.total, h.disjoint, h.aligned⟩

lemma valid_arenaCreate {defaultBlockSize id memory : ℕ} {bounded : Bool} (hmemory : 0 < memory)
    (hend : memory + (if defaultBlockSize < 1024 then 1024 else defaultBlockSize) ≤ 2 ^ 63) :
    Valid (arenaCreate defaultBlockSize id memory bounded) [[]] := by
  constructor
  · exact List.cons_ne_nil _ _
  · constructor
    · exact List.nodup_singleton _
    · exact List.pairwise_singleton _ _
    · exact fun b hb => (List.mem_singleton.1 hb) ▸ Nat.zero_le _
    · exact fun b hb => (List.mem_singleton.1 hb) ▸ ⟨hmemory, hend⟩
  · exact fun x hx => absurd hx List.not_mem_nil
  · simp [arenaCreate]
  · exact List.Pairwise.nil
  · exact fun x hx => absurd hx List.not_mem_nil

/-! ## Runs -/

/-- The innermost frame is dropped; without a scope nothing is. -/
def popFrames : List (List Allocation) → List (List Allocation)
  | _ :: frame :: frames => frame :: frames
  | frames => frames

/-- The innermost frame joins the one around it. -/
def commitFrames : List (List Allocation) → List (List Allocation)
  | inner :: outer :: frames => (inner ++ outer) :: frames
  | frames => frames

/-- The arenas that calls produce, with the allocations that are alive, by scope. A merge goes on with
the destination only; the source is left without blocks, but with its scopes. -/
inductive Run : Arena → List (List Allocation) → Prop
  | create (defaultBlockSize id memory : ℕ) (bounded : Bool) (hmemory : 0 < memory)
      (hend : memory + (if defaultBlockSize < 1024 then 1024 else defaultBlockSize) ≤ 2 ^ 63) :
      Run (arenaCreate defaultBlockSize id memory bounded) [[]]
  | allocate {arena arena' : Arena} {frame : List Allocation} {frames : List (List Allocation)}
      {p : ℕ} (h : Run arena (frame :: frames)) (size alignment : ℕ) (malloc : Malloc)
      (hsize : size + effectiveAlignment alignment ≤ 2 ^ 62)
      (hmalloc : FreshMalloc arena.blocks malloc)
      (heq : arenaAllocateAligned arena size alignment malloc = .ok (arena', some p)) :
      Run arena' ((⟨p, size, effectiveAlignment alignment⟩ :: frame) :: frames)
  | refused {arena arena' : Arena} {frames : List (List Allocation)} {size alignment : ℕ}
      {malloc : Malloc} (h : Run arena frames)
      (hsize : size + effectiveAlignment alignment ≤ 2 ^ 62)
      (hmalloc : FreshMalloc arena.blocks malloc)
      (heq : arenaAllocateAligned arena size alignment malloc = .ok (arena', none)) :
      Run arena' frames
  | pushScope {arena arena' : Arena} {frames : List (List Allocation)} (h : Run arena frames)
      (heq : arenaPushScope arena = .ok arena') : Run arena' ([] :: frames)
  | popScope {arena arena' : Arena} {frames : List (List Allocation)} (h : Run arena frames)
      (heq : arenaPopScope arena = .ok arena') : Run arena' (popFrames frames)
  | commitScope {arena : Arena} {frames : List (List Allocation)} (h : Run arena frames) :
      Run (arenaCommitScope arena) (commitFrames frames)
  | iterScopeEnd {arena arena' : Arena} {frames : List (List Allocation)} {vals : List TaggedValue}
      (h : Run arena frames) (heq : arenaIterScopeEnd arena vals = .ok arena') :
      Run arena' (if escapes arena vals then commitFrames frames else popFrames frames)
  | reset {arena : Arena} {frames : List (List Allocation)} (h : Run arena frames) :
      Run (arenaReset arena) [[]]
  | merge {dest src : Arena} {frames frames' : List (List Allocation)} (h : Run dest frames)
      (h' : Run src frames') (hapart : Apart dest src) :
      Run (arenaMergeToParent dest src).1 (appendBase frames'.flatten frames)

/-- There is one frame more than there are scopes. -/
lemma Laid.length_eq (h : Laid scopes frames blocks) : frames.length = scopes.length + 1 := by
  induction scopes generalizing frames blocks with
  | nil =>
    match frames, h with
    | [frame], _ => rfl
  | cons s scopes ih =>
    match frames, h with
    | frame :: frames, h => rw [List.length_cons, List.length_cons, ih h.2.2]

lemma Valid.popFrames {arena : Arena} (h : Valid arena frames) :
    ∃ arena', arenaPopScope arena = .ok arena' ∧ Valid arena' (popFrames frames) := by
  have hlen := h.laid.length_eq
  match hscopes : arena.scopes, frames, h with
  | [], [frame], h => exact ⟨arena, by simp only [arenaPopScope, hscopes], h⟩
  | s :: scopes, frame :: frame' :: frames, h =>
    obtain ⟨arena', hpop, -, -, hvalid⟩ := h.popScope hscopes
    exact ⟨arena', hpop, hvalid⟩
  | [], [], _ => simp [hscopes] at hlen
  | [], _ :: _ :: _, _ => simp [hscopes] at hlen
  | _ :: _, [], _ => simp [hscopes] at hlen
  | _ :: _, [_], _ => simp [hscopes] at hlen

lemma Valid.commitFrames {arena : Arena} (h : Valid arena frames) :
    Valid (arenaCommitScope arena) (commitFrames frames) := by
  match frames, h with
  | inner :: outer :: frames, h => exact h.commitScope
  | [frame], h =>
    have hnil : arena.scopes = [] := by simpa using h.laid.length_eq
    rwa [arenaCommitScope, hnil, List.tail_nil, ← hnil]
  | [], h => exact absurd rfl h.laid.ne_nil

/-- An iteration ends with a commit or a pop. -/
lemma Valid.iterScopeEnd {arena : Arena} (h : Valid arena frames) (vals : List TaggedValue) :
    ∃ arena', arenaIterScopeEnd arena vals = .ok arena' ∧
      Valid arena' (if escapes arena vals then ArenaCore.commitFrames frames
        else ArenaCore.popFrames frames) := by
  obtain ⟨popped, hpop, hvalid⟩ := h.popFrames
  unfold arenaIterScopeEnd
  cases hscopes : arena.scopes with
  | nil =>
    have hlen := h.laid.length_eq
    rw [hscopes] at hlen
    obtain ⟨frame, rfl⟩ := List.length_eq_one_iff.1 hlen
    refine ⟨arena, rfl, ?_⟩
    split <;> exact h
  | cons s scopes =>
    simp only
    split
    · exact ⟨_, rfl, h.commitFrames⟩
    · exact ⟨popped, hpop, hvalid⟩

/-- Run lemma: arenas stay valid. -/
lemma Run.valid {arena : Arena} (h : Run arena frames) : Valid arena frames := by
  induction h with
  | create _ _ _ _ hmemory hend => exact valid_arenaCreate hmemory hend
  | allocate h size alignment malloc hsize hmalloc heq ih =>
    rcases ih.allocate_cases hsize hmalloc with hnone | ⟨arena', p, hsome, hmod, hext⟩
    · rw [heq] at hnone
      cases hnone
    · rw [heq] at hsome
      cases hsome
      exact hext.valid ih hmod
  | refused h hsize hmalloc heq ih =>
    rcases ih.allocate_cases hsize hmalloc with hnone | ⟨arena', p, hsome, -⟩
    · rw [heq] at hnone
      cases hnone
      exact ih
    · rw [heq] at hsome
      cases hsome
  | pushScope h heq ih =>
    obtain ⟨arena', hpush, hvalid⟩ := ih.pushScope
    rw [heq] at hpush
    cases hpush
    exact hvalid
  | popScope h heq ih =>
    obtain ⟨arena', hpop, hvalid⟩ := ih.popFrames
    rw [heq] at hpop
    cases hpop
    exact hvalid
  | commitScope h ih => exact ih.commitFrames
  | @iterScopeEnd _ _ _ vals h heq ih =>
    obtain ⟨arena', hend, hvalid⟩ := ih.iterScopeEnd vals
    rw [heq] at hend
    cases hend
    exact hvalid
  | reset h ih => exact ih.reset
  | merge h h' hapart ih ih' => exact ih.merge ih' hapart

/-- Values of an iteration keep what they point into. -/
lemma Valid.iterScopeEnd_inUse {arena arena' : Arena} {vals : List TaggedValue}
    (h : Valid arena frames) (heq : arenaIterScopeEnd arena vals = .ok arena') {v : TaggedValue}
    (hv : v ∈ vals) (hpointer : ¬v.Immediate) (hy : y ∈ frames.flatten) (hlow : y.start ≤ v.data)
    (hhigh : v.data < y.start + y.size) : InUse arena'.blocks y := by
  have hinUse := h.laid.inUse hy
  unfold arenaIterScopeEnd at heq
  match hscopes : arena.scopes, frames, h, hy with
  | [], frames, h, hy =>
    rw [hscopes] at heq
    cases heq
    exact hinUse
  | s :: scopes, frame :: frames, h, hy =>
    simp only [hscopes] at heq
    by_cases hescapes : escapes arena vals = true
    · rw [if_pos hescapes] at heq
      cases heq
      exact hinUse
    · rw [if_neg hescapes] at heq
      obtain ⟨popped, hpop, hblocks, -, -⟩ := h.popScope hscopes
      obtain rfl : popped = arena' := Except.ok.inj (hpop.symm.trans heq)
      have hlaid := h.laid
      rw [hscopes] at hlaid
      rw [List.flatten_cons, List.mem_append] at hy
      rcases hy with hy | hy
      · -- a pointer into the innermost scope would have been an escape
        obtain ⟨b, hb, hblow, -⟩ := hinUse
        have hpos := (h.separate.bounded b hb).1
        have hspan := (hlaid.1 y hy).spanContains hlow hhigh
        have hne : v.data ≠ 0 := by omega
        refine absurd (List.any_eq_true.2 ⟨v, hv, ?_⟩) hescapes
        simp [hpointer, hne, arenaTopScopeContains, hscopes, hspan]
      · exact hblocks ▸ hlaid.2.2.inUse hy

/-- In every run the live allocations are aligned, lie in the used parts of their blocks and are
apart, and the total is that of the blocks. Popping frees every byte of the scope's allocations,
those of committed scopes included, and keeps the older ones; the end of an iteration keeps what its
values point into; no call faults. -/
theorem arena_runs {arena : Arena} {frames : List (List Allocation)} (h : Run arena frames) :
    (∀ x ∈ frames.flatten, x.start % x.alignment = 0 ∧ InUse arena.blocks x) ∧
    (∀ b ∈ arena.blocks, b.used ≤ b.size) ∧
    frames.flatten.Pairwise Allocation.Disjoint ∧
    arena.totalAllocated = (arena.blocks.map Block.size).sum ∧
    (∀ frame frame' rest, frames = frame :: frame' :: rest →
      ∃ arena', arenaPopScope arena = .ok arena' ∧
        (∀ x ∈ frame, ∀ n, x.start ≤ n → n < x.start + x.size → ¬ByteInUse arena'.blocks n) ∧
        ∀ x ∈ (frame' :: rest).flatten, InUse arena'.blocks x) ∧
    (∀ vals, ∃ arena', arenaIterScopeEnd arena vals = .ok arena' ∧
      ∀ v ∈ vals, ¬v.Immediate → ∀ x ∈ frames.flatten, x.start ≤ v.data →
        v.data < x.start + x.size → InUse arena'.blocks x) ∧
    (∃ arena', arenaPushScope arena = .ok arena') ∧
    ∀ size alignment malloc, size + effectiveAlignment alignment ≤ 2 ^ 62 →
      FreshMalloc arena.blocks malloc →
      ∃ result, arenaAllocateAligned arena size alignment malloc = .ok result := by
  have hvalid := h.valid
  refine ⟨fun x hx => ⟨hvalid.aligned x hx, hvalid.laid.inUse hx⟩, hvalid.separate.used_le,
    hvalid.disjoint, hvalid.total, ?_, fun vals => ?_, ?_, ?_⟩
  · rintro frame frame' rest rfl
    obtain ⟨s, scopes, hscopes⟩ : ∃ s scopes, arena.scopes = s :: scopes :=
      List.exists_cons_of_length_pos (by have := hvalid.laid.length_eq; simp at this; omega)
    obtain ⟨arena', hpop, hblocks, -, hvalid'⟩ := hvalid.popScope hscopes
    have hlaid := hvalid.laid
    rw [hscopes] at hlaid
    refine ⟨arena', hpop, fun x hx n hlow hhigh => ?_, fun x hx => hvalid'.laid.inUse hx⟩
    rw [hblocks]
    exact (hlaid.1 x hx).not_byteInUse hvalid.separate hlaid.2.1 hlow hhigh
  · obtain ⟨arena', heq, -⟩ := hvalid.iterScopeEnd vals
    exact ⟨arena', heq, fun v hv hpointer x hx hlow hhigh =>
      hvalid.iterScopeEnd_inUse heq hv hpointer hx hlow hhigh⟩
  · obtain ⟨arena', hpush, -⟩ := hvalid.pushScope
    exact ⟨arena', hpush⟩
  · intro size alignment malloc hsize hmalloc
    rcases hvalid.allocate_cases hsize hmalloc with hnone | ⟨arena', p, hsome, -⟩
    · exact ⟨_, hnone⟩
    · exact ⟨_, hsome⟩

/-- A second block of at most four kilobytes. -/
def secondBlock : Malloc := fun n => if n ≤ 4096 then some (2, 8192) else none

/-- Twenty-four bytes in a scope of a fresh arena, then two thousand in a scope of an iteration whose
value points into them, and eight in a committed scope. -/
theorem arena_runs_iteration :
    ∃ arena, Run arena [[⟨10192, 8, 8⟩, ⟨8192, 2000, 16⟩, ⟨4096, 24, 8⟩], []] ∧
    ∃ arena', arenaPopScope arena = .ok arena' ∧ ¬ByteInUse arena'.blocks 4100 ∧
      ¬ByteInUse arena'.blocks 9000 := by
  have hcreate : Run (arenaCreate 1024 1 4096 false) [[]] := .create 1024 1 4096 false (by omega) (by simp)
  have hfirst : Run ⟨[⟨1, 4096, 1024, 24⟩], [⟨1, 0⟩], 1024, 1024, false⟩ [[⟨4096, 24, 8⟩], []] :=
    .allocate (.pushScope hcreate rfl) 24 8 (fun _ => none) (by simp [effectiveAlignment])
      (fun _ _ _ hnone => absurd hnone (by simp)) rfl
  have hmalloc : FreshMalloc [⟨1, 4096, 1024, 24⟩] secondBlock := fun n id memory hsome => by
    obtain ⟨hn, heq⟩ := Option.ite_none_right_eq_some.1 hsome
    cases heq
    exact ⟨by decide, by decide, by omega, by simp⟩
  have hsecond : Run ⟨[⟨2, 8192, 2015, 2000⟩, ⟨1, 4096, 1024, 24⟩], [⟨1, 24⟩, ⟨1, 0⟩], 1024, 3039, false⟩
      [[⟨8192, 2000, 16⟩], [⟨4096, 24, 8⟩], []] :=
    .allocate (.pushScope hfirst rfl) 2000 16 secondBlock (by simp [effectiveAlignment]) hmalloc rfl
  have hkept : Run _ [[⟨8192, 2000, 16⟩, ⟨4096, 24, 8⟩], []] :=
    .iterScopeEnd hsecond (show arenaIterScopeEnd _ [⟨8, 8200⟩] = .ok _ from rfl)
  have hthird : Run ⟨[⟨2, 8192, 2015, 2008⟩, ⟨1, 4096, 1024, 24⟩], [⟨2, 2000⟩, ⟨1, 0⟩], 1024, 3039, false⟩
      [[⟨10192, 8, 8⟩], [⟨8192, 2000, 16⟩, ⟨4096, 24, 8⟩], []] :=
    .allocate (.pushScope hkept rfl) 8 8 (fun _ => none) (by simp [effectiveAlignment])
      (fun _ _ _ hnone => absurd hnone (by simp)) rfl
  have hrun : Run _ [[⟨10192, 8, 8⟩, ⟨8192, 2000, 16⟩, ⟨4096, 24, 8⟩], []] := .commitScope hthird
  obtain ⟨arena', hpop, hfreed, -⟩ := (arena_runs hrun).2.2.2.2.1 _ _ _ rfl
  exact ⟨_, hrun, arena', hpop, hfreed ⟨4096, 24, 8⟩ (by simp) 4100 (by simp) (by simp),
    hfreed ⟨8192, 2000, 16⟩ (by simp) 9000 (by simp) (by simp)⟩

/-! ## Outside the discipline -/

/-- The check for room overflows: a request for all but the used bytes of the address space is
granted, after which the block counts as empty and the next request gets its first address again. -/
theorem request_wraps {arena : Arena} {rest : List Block} (hblocks : arena.blocks = b :: rest)
    (hmemory : b.memory % 8 = 0) (hused : b.used % 8 = 0) (hpos : 8 ≤ b.used) (hle : b.used ≤ b.size)
    (hbounds : b.memory + b.size ≤ 2 ^ 63) (malloc : Malloc) :
    ∃ arena' arena'', arenaAllocateAligned arena (2 ^ 64 - b.used) 8 malloc =
        .ok (arena', some (b.memory + b.used)) ∧
      arenaAllocateAligned arena' 8 8 malloc = .ok (arena'', some b.memory) := by
  have hround : ∀ x, x % 8 = 0 → roundUp x (2 ^ 3) = x := fun x hx => by
    rw [roundUp]
    omega
  have hoffset : ∀ block : Block, block.memory % 8 = 0 → ∀ used, used % 8 = 0 →
      block.memory + used ≤ 2 ^ 63 → alignBlockOffset block used 8 = used := by
    intro block hblock used hu hbound
    have heq : block.memory + alignBlockOffset block used 8 = roundUp (block.memory + used) (2 ^ 3) :=
      alignBlockOffset_eq (k := 3) (by omega) (by omega)
    rw [hround _ (by omega)] at heq
    exact Nat.add_left_cancel heq
  have hpow : ¬8 &&& (8 - 1) ≠ 0 := by decide
  have hsize : alignSize (2 ^ 64 - b.used) 8 = 2 ^ 64 - b.used :=
    (alignSize_eq (k := 3) (by omega) (by omega)).trans (hround _ (by omega))
  have hsize' : alignSize 8 8 = 8 := (alignSize_eq (k := 3) (by omega) (by omega)).trans (hround 8 rfl)
  have hwrap : word (b.used + (2 ^ 64 - b.used)) = 0 := by
    rw [word]
    omega
  refine ⟨{ arena with blocks := { b with used := 0 } :: rest },
    { arena with blocks := { b with used := 8 } :: rest }, ?_, ?_⟩
  · rw [arenaAllocateAligned, if_neg (by omega)]
    simp only [if_neg (show ¬(8 : ℕ) = 0 by omega), if_neg hpow]
    rw [if_neg (by rw [sizeMax]; omega), hsize, if_neg (by rw [sizeMax]; omega), allocateFromBlock]
    simp only [hblocks, hoffset b hmemory b.used hused (by omega), hwrap]
    rw [if_neg (by omega)]
  · rw [arenaAllocateAligned, if_neg (by omega)]
    simp only [if_neg (show ¬(8 : ℕ) = 0 by omega), if_neg hpow]
    rw [if_neg (by rw [sizeMax]; omega), hsize', if_neg (by rw [sizeMax]; omega), allocateFromBlock]
    have hfirst := hoffset { b with used := 0 } hmemory 0 rfl (by simp only; omega)
    simp only [hfirst, Nat.zero_add]
    rw [word_of_lt (by omega), if_neg (by omega)]
    rfl

theorem request_wraps_fresh : ∃ arena' arena'',
    arenaAllocateAligned ⟨[⟨1, 4096, 1024, 24⟩], [], 1024, 1024, false⟩ (2 ^ 64 - 24) 8 (fun _ => none) =
        .ok (arena', some 4120) ∧
      arenaAllocateAligned arena' 8 8 (fun _ => none) = .ok (arena'', some 4096) :=
  request_wraps (b := ⟨1, 4096, 1024, 24⟩) rfl rfl rfl (by decide) (by decide) (by decide) _

end ArenaCore
