import Mathlib.Data.Int.Notation
import Mathlib.Data.List.Basic
import Mathlib.Data.Option.Basic

/-!
# Heap blocks of the native runtime

The heap objects that a program allocates inside and outside regions, the headerless buffers they
own, and the arenas the blocks live in. An address names the allocation that made the block and
which representative of it the block is: the block as allocated is representative `0`, each copy
made when a value leaves its region is a further one. Programs never compare addresses, so erasing
the second component (`Addr.origin`) is what a run without regions sees.

An arena is named by its level: `0` is the global arena, `k` the `k`-th active region, counted from
the outside (`region_index_owning` plus one).
-/

namespace Region

/-- `MAX_REGION_DEPTH`. -/
def maxRegionDepth : ℕ := 64

/-- The largest object that `evac_object` copies. -/
def maxObjectBytes : ℕ := 0x10000000

structure Addr where
  obj : ℕ
  copy : ℕ
deriving DecidableEq, Repr

/-- The block as allocated. -/
def Addr.origin (a : Addr) : Addr := ⟨a.obj, 0⟩

/-- A tagged value: an `INT64`, another immediate, or a pointer to a heap object. -/
inductive Val where
  | int (n : ℤ)
  | imm (c : ℕ)
  | ref (a : Addr)
deriving DecidableEq, Repr

/-- A capture slot or a local variable: a value, or the address of the headerless cell that a
captured mutable variable was moved to. -/
inductive Capture where
  | val (v : Val)
  | cell (a : Addr)
deriving DecidableEq, Repr

/-- `status[i]` with `keys[i]` and `values[i]`. What a deleted entry still holds is never read. -/
inductive Entry where
  | empty
  | deleted
  | occupied (key value : Val)
deriving DecidableEq, Repr

/-- The status byte. -/
def Entry.status : Entry → ℕ
  | .empty => 0
  | .occupied _ _ => 1
  | .deleted => 2

def Entry.key? : Entry → Option Val
  | .occupied key _ => some key
  | _ => none

def Entry.value? : Entry → Option Val
  | .occupied _ value => some value
  | _ => none

/-- A contiguous piece of arena memory. The last three are headerless: the arrays of a hash table
(allocated, replaced and freed together), a closure's captured environment, a capture cell. -/
inductive Block where
  | cons (car cdr : Val)
  | vector (elems : List Val)
  | promise (forced : Bool) (thunk cached : Val)
  | hash (capacity size tombstones : ℕ) (storage : Addr) (homeArena : ℕ)
  | closure (funcPtr : ℕ) (env : Option Addr)
  | leaf (bytes : List ℕ)
  | storage (entries : List Entry)
  | env (captures : List Capture)
  | cell (v : Val)
deriving DecidableEq, Repr

/-- What kind of block it is; for an object, its header's subtype. -/
inductive Kind where
  | cons | vector | promise | hash | closure | leaf | storage | env | cell
deriving DecidableEq, Repr

/-- What a pointer may point to. -/
inductive Target where
  | object | storage | env | cell
deriving DecidableEq, Repr

def Kind.target : Kind → Target
  | .storage => .storage
  | .env => .env
  | .cell => .cell
  | _ => .object

def Block.kind : Block → Kind
  | .cons .. => .cons
  | .vector .. => .vector
  | .promise .. => .promise
  | .hash .. => .hash
  | .closure .. => .closure
  | .leaf .. => .leaf
  | .storage .. => .storage
  | .env .. => .env
  | .cell .. => .cell

/-- The bytes of the block, headers not counted. -/
def Block.bytes : Block → ℕ
  | .cons .. => 32
  | .vector elems => 8 + 16 * elems.length
  | .promise .. => 40
  | .hash .. => 56
  | .closure .. => 40
  | .leaf bytes => bytes.length
  | .storage entries => 33 * entries.length
  | .env captures => 8 + 16 * captures.length
  | .cell .. => 16

/-- A pointer that stands in a block, with what it may point to. -/
structure Link where
  target : Target
  addr : Addr
deriving DecidableEq

/-! ## Erasing copies -/

/-- Data with pointers in it: the pointers, and the data with every pointer to a copy replaced by
one to the block as allocated. -/
class Slotted (α : Type) where
  erase : α → α
  links : α → List Link

export Slotted (erase links)

instance : Slotted Val where
  erase
    | .ref a => .ref a.origin
    | v => v
  links
    | .ref a => [⟨.object, a⟩]
    | _ => []

instance : Slotted Capture where
  erase
    | .val v => .val (erase v)
    | .cell a => .cell a.origin
  links
    | .val v => links v
    | .cell a => [⟨.cell, a⟩]

instance : Slotted Entry where
  erase
    | .occupied key value => .occupied (erase key) (erase value)
    | e => e
  links
    | .occupied key value => links key ++ links value
    | _ => []

instance {α : Type} [Slotted α] : Slotted (List α) where
  erase xs := xs.map erase
  links xs := xs.flatMap links

/-- Without regions every table's home is the global arena. -/
instance : Slotted Block where
  erase
    | .cons car cdr => .cons (erase car) (erase cdr)
    | .vector elems => .vector (erase elems)
    | .promise forced thunk cached => .promise forced (erase thunk) (erase cached)
    | .hash capacity size tombstones storage _ => .hash capacity size tombstones storage.origin 0
    | .closure funcPtr env => .closure funcPtr (env.map Addr.origin)
    | .leaf bytes => .leaf bytes
    | .storage entries => .storage (erase entries)
    | .env captures => .env (erase captures)
    | .cell v => .cell (erase v)
  links
    | .cons car cdr => links car ++ links cdr
    | .vector elems => links elems
    | .promise _ thunk cached => links thunk ++ links cached
    | .hash _ _ _ storage _ => [⟨.storage, storage⟩]
    | .closure _ env => env.toList.map (⟨.env, ·⟩)
    | .leaf _ => []
    | .storage entries => links entries
    | .env captures => links captures
    | .cell v => links v

section slotted

@[simp] lemma origin_obj (a : Addr) : a.origin.obj = a.obj := rfl

lemma origin_eq_iff {a b : Addr} : a.origin = b.origin ↔ a.obj = b.obj := by
  simp [Addr.origin]

@[simp] lemma erase_int (n : ℤ) : erase (Val.int n) = .int n := rfl
@[simp] lemma erase_imm (c : ℕ) : erase (Val.imm c) = .imm c := rfl
@[simp] lemma erase_ref (a : Addr) : erase (Val.ref a) = .ref a.origin := rfl
@[simp] lemma erase_captureVal (v : Val) : erase (Capture.val v) = .val (erase v) := rfl
@[simp] lemma erase_captureCell (a : Addr) : erase (Capture.cell a) = .cell a.origin := rfl
@[simp] lemma erase_empty : erase Entry.empty = .empty := rfl
@[simp] lemma erase_deleted : erase Entry.deleted = .deleted := rfl
@[simp] lemma erase_occupied (k v : Val) :
    erase (Entry.occupied k v) = .occupied (erase k) (erase v) := rfl

@[simp] lemma links_ref (a : Addr) : links (Val.ref a) = [⟨.object, a⟩] := rfl
@[simp] lemma links_int (n : ℤ) : links (Val.int n) = [] := rfl
@[simp] lemma links_imm (c : ℕ) : links (Val.imm c) = [] := rfl
@[simp] lemma links_captureVal (v : Val) : links (Capture.val v) = links v := rfl
@[simp] lemma links_captureCell (a : Addr) : links (Capture.cell a) = [⟨.cell, a⟩] := rfl
@[simp] lemma links_empty : links Entry.empty = [] := rfl
@[simp] lemma links_deleted : links Entry.deleted = [] := rfl
@[simp] lemma links_occupied (k v : Val) :
    links (Entry.occupied k v) = links k ++ links v := rfl

@[simp] lemma status_erase (e : Entry) : (erase e).status = e.status := by cases e <;> rfl
@[simp] lemma key?_erase (e : Entry) : (erase e).key? = e.key?.map erase := by cases e <;> rfl
@[simp] lemma value?_erase (e : Entry) : (erase e).value? = e.value?.map erase := by
  cases e <;> rfl

lemma links_key? {e : Entry} {v : Val} (h : e.key? = some v) : links v ⊆ links e := by
  cases e with
  | occupied key value =>
    cases h
    simp
  | _ => cases h

lemma links_value? {e : Entry} {v : Val} (h : e.value? = some v) : links v ⊆ links e := by
  cases e with
  | occupied key value =>
    cases h
    simp
  | _ => cases h

variable {α : Type} [Slotted α]

@[simp] lemma erase_list (xs : List α) : erase xs = xs.map erase := rfl
@[simp] lemma links_list (xs : List α) : links xs = xs.flatMap links := rfl

@[simp] lemma erase_cons (a d : Val) : erase (Block.cons a d) = .cons (erase a) (erase d) := rfl
@[simp] lemma erase_vector (es : List Val) :
    erase (Block.vector es) = .vector (es.map erase) := rfl
@[simp] lemma erase_promise (f : Bool) (u c : Val) :
    erase (Block.promise f u c) = .promise f (erase u) (erase c) := rfl
@[simp] lemma erase_hash (c n t : ℕ) (s : Addr) (h : ℕ) :
    erase (Block.hash c n t s h) = .hash c n t s.origin 0 := rfl
@[simp] lemma erase_closure (f : ℕ) (e : Option Addr) :
    erase (Block.closure f e) = .closure f (e.map Addr.origin) := rfl
@[simp] lemma erase_leaf (bs : List ℕ) : erase (Block.leaf bs) = .leaf bs := rfl
@[simp] lemma erase_storage (es : List Entry) :
    erase (Block.storage es) = .storage (es.map erase) := rfl
@[simp] lemma erase_env (cs : List Capture) : erase (Block.env cs) = .env (cs.map erase) := rfl
@[simp] lemma erase_cell (v : Val) : erase (Block.cell v) = .cell (erase v) := rfl

@[simp] lemma links_cons (a d : Val) : links (Block.cons a d) = links a ++ links d := rfl
@[simp] lemma links_vector (es : List Val) : links (Block.vector es) = es.flatMap links := rfl
@[simp] lemma links_promise (f : Bool) (u c : Val) :
    links (Block.promise f u c) = links u ++ links c := rfl
@[simp] lemma links_hash (c n t : ℕ) (s : Addr) (h : ℕ) :
    links (Block.hash c n t s h) = [⟨.storage, s⟩] := rfl
@[simp] lemma links_closure (f : ℕ) (e : Option Addr) :
    links (Block.closure f e) = e.toList.map (⟨.env, ·⟩) := rfl
@[simp] lemma links_leaf (bs : List ℕ) : links (Block.leaf bs) = [] := rfl
@[simp] lemma links_storage (es : List Entry) :
    links (Block.storage es) = es.flatMap links := rfl
@[simp] lemma links_env (cs : List Capture) : links (Block.env cs) = cs.flatMap links := rfl
@[simp] lemma links_cell (v : Val) : links (Block.cell v) = links v := rfl

@[simp] lemma kind_erase (b : Block) : (erase b).kind = b.kind := by cases b <;> rfl

@[simp] lemma bytes_erase (b : Block) : (erase b).bytes = b.bytes := by
  cases b <;> simp [Block.bytes]

end slotted

lemma target_of_mem_val {v : Val} {l : Link} (h : l ∈ links v) : l.target = .object := by
  cases v <;> simp_all

lemma target_of_mem_entry {e : Entry} {l : Link} (h : l ∈ links e) : l.target = .object := by
  cases e with
  | occupied key value => exact (List.mem_append.1 h).elim target_of_mem_val target_of_mem_val
  | _ => cases h

lemma target_of_mem_capture {c : Capture} {l : Link} (h : l ∈ links c) :
    l.target = .object ∨ l.target = .cell := by
  cases c with
  | val v => exact Or.inl (target_of_mem_val h)
  | cell a => simp_all

/-- Only a table points to arrays. -/
lemma eq_hash_of_mem_links {b : Block} {l : Link} (h : l ∈ links b) (ht : l.target = .storage) :
    ∃ capacity size tombstones home, b = .hash capacity size tombstones l.addr home := by
  cases b with
  | hash capacity size tombstones storage home =>
    obtain rfl := List.mem_singleton.1 h
    exact ⟨_, _, _, _, rfl⟩
  | cons car cdr =>
    have := (List.mem_append.1 h).elim target_of_mem_val target_of_mem_val
    simp_all
  | promise forced thunk cached =>
    have := (List.mem_append.1 h).elim target_of_mem_val target_of_mem_val
    simp_all
  | vector elems =>
    obtain ⟨v, -, hv⟩ := List.mem_flatMap.1 h
    simp [target_of_mem_val hv] at ht
  | storage entries =>
    obtain ⟨v, -, hv⟩ := List.mem_flatMap.1 h
    simp [target_of_mem_entry hv] at ht
  | env captures =>
    obtain ⟨v, -, hv⟩ := List.mem_flatMap.1 h
    obtain ho | hc := target_of_mem_capture hv
    · simp [ho] at ht
    · simp [hc] at ht
  | closure funcPtr env =>
    obtain ⟨v, -, rfl⟩ := List.mem_map.1 h
    cases ht
  | leaf bytes => cases h
  | cell v => simp [target_of_mem_val (v := v) h] at ht

/-- The integers that a block holds as capture values, which the evacuator cannot tell from the
addresses of capture cells. -/
def Block.capturedInts : Block → List ℤ
  | .env captures => captures.filterMap fun
    | .val (.int n) => some n
    | _ => none
  | _ => []

lemma capturedInts_erase (b : Block) : (erase b).capturedInts = b.capturedInts := by
  cases b with
  | env captures =>
    simp only [erase_env, Block.capturedInts, List.filterMap_map]
    apply List.filterMap_congr
    rintro (v | a) _
    · cases v <;> rfl
    · rfl
  | _ => rfl

/-! ## Reading and updating a block -/

/-- What a program can read of a block. -/
inductive Field where
  | car | cdr
  | elem (i : ℕ) | length
  | forced | thunk | cached
  | capacity | size | tombstones
  | status (i : ℕ) | key (i : ℕ) | value (i : ℕ)
  | funcPtr | capture (i : ℕ)
  | byte (i : ℕ) | byteLength
  | content
deriving DecidableEq, Repr

def Block.get : Block → Field → Option Capture
  | .cons car _, .car => some (.val car)
  | .cons _ cdr, .cdr => some (.val cdr)
  | .vector elems, .elem i => elems[i]?.map .val
  | .vector elems, .length => some (.val (.int elems.length))
  | .promise forced _ _, .forced => some (.val (.int (if forced then 1 else 0)))
  | .promise _ thunk _, .thunk => some (.val thunk)
  | .promise _ _ cached, .cached => some (.val cached)
  | .hash capacity _ _ _ _, .capacity => some (.val (.int capacity))
  | .hash _ size _ _ _, .size => some (.val (.int size))
  | .hash _ _ tombstones _ _, .tombstones => some (.val (.int tombstones))
  | .storage entries, .status i => entries[i]?.map fun e => .val (.int e.status)
  | .storage entries, .key i => (entries[i]?.bind Entry.key?).map .val
  | .storage entries, .value i => (entries[i]?.bind Entry.value?).map .val
  | .closure funcPtr _, .funcPtr => some (.val (.int funcPtr))
  | .env captures, .capture i => captures[i]?
  | .leaf bytes, .byte i => bytes[i]?.map fun b => .val (.int b)
  | .leaf bytes, .byteLength => some (.val (.int bytes.length))
  | .cell v, .content => some (.val v)
  | _, _ => none

/-- The mutations of a block. The values that `args` names go through the write barrier first. -/
inductive Update where
  | setCar | setCdr
  | vectorSet (i : ℕ) | vectorFill (start : ℕ)
  | setThunk | memoize
  | setCounts (size tombstones : ℕ)
  | putEntry (i : ℕ) | setValue (i : ℕ) | removeEntry (i : ℕ) | clear
  | setByte (i b : ℕ)
  | setContent
deriving DecidableEq, Repr

/-- `vectorFill` is the store of `vector-copy!`: the values go to consecutive slots. -/
def Block.update : Block → Update → List Val → Option Block
  | .cons _ cdr, .setCar, [v] => some (.cons v cdr)
  | .cons car _, .setCdr, [v] => some (.cons car v)
  | .vector elems, .vectorSet i, [v] =>
    if i < elems.length then some (.vector (elems.set i v)) else none
  | .vector elems, .vectorFill start, vs =>
    if start + vs.length ≤ elems.length then
      some (.vector (elems.take start ++ vs ++ elems.drop (start + vs.length)))
    else none
  | .promise forced _ cached, .setThunk, [v] => some (.promise forced v cached)
  | .promise _ thunk _, .memoize, [v] => some (.promise true thunk v)
  | .hash capacity _ _ arrays home, .setCounts size tombstones, [] =>
    some (.hash capacity size tombstones arrays home)
  | .storage entries, .putEntry i, [key, value] =>
    if i < entries.length then some (.storage (entries.set i (.occupied key value))) else none
  | .storage entries, .setValue i, [value] =>
    (entries[i]?.bind Entry.key?).map fun key => .storage (entries.set i (.occupied key value))
  | .storage entries, .removeEntry i, [] =>
    if i < entries.length then some (.storage (entries.set i .deleted)) else none
  | .storage entries, .clear, [] => some (.storage (entries.map fun _ => .empty))
  | .leaf bytes, .setByte i b, [] =>
    if i < bytes.length then some (.leaf (bytes.set i b)) else none
  | .cell _, .setContent, [v] => some (.cell v)
  | _, _, _ => none

/-- The buffer of an object that holds the field: the object itself, or a buffer it owns. -/
def Block.holder (self : Addr) : Block → Target → Option Addr
  | .hash _ _ _ arrays _, .storage => some arrays
  | .closure _ captured, .env => captured
  | .cell _, .cell => some self
  | b, .object => if b.kind.target = .object then some self else none
  | _, _ => none

def Field.part : Field → Target
  | .status _ | .key _ | .value _ => .storage
  | .capture _ => .env
  | .content => .cell
  | _ => .object

def Update.part : Update → Target
  | .putEntry _ | .setValue _ | .removeEntry _ | .clear => .storage
  | .setContent => .cell
  | _ => .object

/-! ### The operations on a block commute with erasing copies -/

lemma links_set_subset {α : Type} [Slotted α] (xs : List α) (i : ℕ) (x : α) :
    (xs.set i x).flatMap links ⊆ xs.flatMap links ++ links x := by
  intro l hl
  obtain ⟨y, hy, hly⟩ := List.mem_flatMap.1 hl
  rw [List.mem_append, List.mem_flatMap]
  obtain hmem | rfl := List.mem_or_eq_of_mem_set hy
  · exact Or.inl ⟨y, hmem, hly⟩
  · exact Or.inr hly

lemma links_getElem?_subset {α : Type} [Slotted α] {xs : List α} {i : ℕ} {x : α}
    (h : xs[i]? = some x) : links x ⊆ xs.flatMap links :=
  fun _ hl => List.mem_flatMap.2 ⟨x, List.mem_of_getElem? h, hl⟩

lemma get_erase (b : Block) (f : Field) : (erase b).get f = (b.get f).map erase := by
  cases b <;> cases f <;> first
    | rfl
    | simp [Block.get, Option.map_map, Function.comp_def, Option.bind_map, Option.map_bind]

lemma links_get {b : Block} {f : Field} {c : Capture} (h : b.get f = some c) :
    links c ⊆ links b := by
  revert h
  fun_cases Block.get b f
  case case3 elems i =>
    intro h
    obtain ⟨v, hv, rfl⟩ := Option.map_eq_some_iff.1 h
    exact links_getElem?_subset hv
  case case11 entries i =>
    intro h
    obtain ⟨e, -, rfl⟩ := Option.map_eq_some_iff.1 h
    simp
  case case12 entries i =>
    intro h
    obtain ⟨v, hv, rfl⟩ := Option.map_eq_some_iff.1 h
    obtain ⟨e, he, hkey⟩ := Option.bind_eq_some_iff.1 hv
    exact List.Subset.trans (links_key? hkey) (links_getElem?_subset he)
  case case13 entries i =>
    intro h
    obtain ⟨v, hv, rfl⟩ := Option.map_eq_some_iff.1 h
    obtain ⟨e, he, hvalue⟩ := Option.bind_eq_some_iff.1 hv
    exact List.Subset.trans (links_value? hvalue) (links_getElem?_subset he)
  case case15 captures i => exact links_getElem?_subset
  case case16 bytes i =>
    intro h
    obtain ⟨b, -, rfl⟩ := Option.map_eq_some_iff.1 h
    simp
  all_goals
    rintro ⟨⟩
  all_goals simp

lemma update_erase (b : Block) (u : Update) (vs : List Val) :
    (erase b).update u (vs.map erase) = (b.update u vs).map erase := by
  -- only the arms that look into a list do not compute
  cases b <;> cases u <;> try rfl
  case vector.vectorFill elems start => simp [Block.update, apply_ite]
  all_goals
    rcases vs with _ | ⟨v, _ | ⟨w, _ | ⟨x, vs⟩⟩⟩
  all_goals try rfl
  case vector.vectorSet.cons.nil elems i => simp [Block.update, apply_ite]
  case leaf.setByte.nil bytes i byte => simp [Block.update, apply_ite]
  case storage.putEntry.cons.cons.nil entries i => simp [Block.update, apply_ite]
  case storage.removeEntry.nil entries i => simp [Block.update, apply_ite]
  case storage.clear.nil entries => simp [Block.update, Function.comp_def]
  case storage.setValue.cons.nil entries i =>
    simp only [erase_storage, List.map_cons, List.map_nil, Block.update, List.getElem?_map]
    cases entries[i]? with
    | none => rfl
    | some e => cases e <;> simp [Entry.key?]

/-- What an update leaves alone, and where the pointers of the updated block come from. -/
lemma update_facts {b b' : Block} {u : Update} {vs : List Val} (h : b.update u vs = some b') :
    b'.kind = b.kind ∧ b'.bytes = b.bytes ∧ links b' ⊆ links b ++ vs.flatMap links := by
  revert h
  fun_cases Block.update b u vs
  case case12 entries i value =>
    intro h
    obtain ⟨key, hkey, rfl⟩ := Option.map_eq_some_iff.1 h
    obtain ⟨e, he, hek⟩ := Option.bind_eq_some_iff.1 hkey
    have hold : links key ⊆ entries.flatMap links :=
      List.Subset.trans (links_key? hek) (links_getElem?_subset he)
    refine ⟨rfl, by simp [Block.bytes], fun l hl => ?_⟩
    have hset := links_set_subset entries i (.occupied key value) hl
    simp only [links_occupied, List.mem_append] at hset
    simp only [links_storage, List.flatMap_cons, List.flatMap_nil, List.append_nil,
      List.mem_append]
    obtain hl | hl | hl := hset
    · exact Or.inl hl
    · exact Or.inl (hold hl)
    · exact Or.inr hl
  case case5 elems start h =>
    rintro ⟨⟩
    refine ⟨rfl, ?_, fun l hl => ?_⟩
    · simp only [Block.bytes, List.length_append, List.length_take, List.length_drop]
      omega
    · simp only [links_vector, List.flatMap_append, List.mem_append, List.mem_flatMap] at hl ⊢
      obtain (⟨v, hv, hl⟩ | hl) | ⟨v, hv, hl⟩ := hl
      · exact Or.inl ⟨v, List.mem_of_mem_take hv, hl⟩
      · exact Or.inr hl
      · exact Or.inl ⟨v, List.mem_of_mem_drop hv, hl⟩
  case case3 elems i v h =>
    rintro ⟨⟩
    exact ⟨rfl, by simp [Block.bytes], by simpa using links_set_subset elems i v⟩
  case case10 entries i key value h =>
    rintro ⟨⟩
    exact ⟨rfl, by simp [Block.bytes], by
      simpa using links_set_subset entries i (.occupied key value)⟩
  case case13 entries i h =>
    rintro ⟨⟩
    exact ⟨rfl, by simp [Block.bytes], by simpa using links_set_subset entries i .deleted⟩
  case case15 entries =>
    rintro ⟨⟩
    exact ⟨rfl, by simp [Block.bytes], by
      simp [List.subset_def, List.mem_replicate]⟩
  all_goals
    rintro ⟨⟩
  all_goals exact ⟨rfl, by simp [Block.bytes], by simp⟩

lemma holder_erase (a : Addr) (b : Block) (p : Target) :
    (erase b).holder a.origin p = (b.holder a p).map Addr.origin := by
  cases b <;> cases p <;> rfl

/-- The holder of a part is the block itself or a block it points to. -/
lemma holder_cases {a x : Addr} {b : Block} {p : Target} (h : b.holder a p = some x) :
    (x = a ∧ b.kind.target = p) ∨ (⟨p, x⟩ : Link) ∈ links b := by
  cases b <;> cases p <;> simp_all [Block.holder, Block.kind, Kind.target]

/-! ## Arena memory -/

/-- A live block and the arena it is in. No operation reads `current`: it records that no mutation
was made to another representative of the same allocation since the block was allocated or
copied from a current one. -/
structure Obj where
  block : Block
  level : ℕ
  current : Bool
deriving DecidableEq, Repr

/-- The live blocks of all arenas. Memory is unbounded and addresses are never used again. -/
structure Mem where
  heap : Addr → Option Obj
  nextId : ℕ
  copies : ℕ

namespace Mem

def empty : Mem := ⟨fun _ => none, 0, 0⟩

/-- `region_index_owning`, with `0` for what is in no active region. -/
def levelOf (m : Mem) (a : Addr) : ℕ := (m.heap a).elim 0 Obj.level

/-- Overwrites one block. -/
def put (m : Mem) (a : Addr) (o : Obj) : Mem := { m with heap := Function.update m.heap a (some o) }

/-- Allocates a block in the arena of `level`. -/
def alloc (m : Mem) (level : ℕ) (b : Block) : Addr × Mem :=
  (⟨m.nextId, 0⟩, { m.put ⟨m.nextId, 0⟩ ⟨b, level, true⟩ with nextId := m.nextId + 1 })

/-- The program's store to a block: the other representatives miss it. -/
def store (m : Mem) (a : Addr) (b : Block) : Mem :=
  { m with heap := fun x =>
      if x = a then (m.heap x).map fun o => { o with block := b }
      else if x.obj = a.obj then (m.heap x).map fun o => { o with current := false }
      else m.heap x }

/-- Frees the arena of `level`. -/
def free (m : Mem) (level : ℕ) : Mem :=
  { m with heap := fun x => (m.heap x).filter fun o => o.level ≠ level }

end Mem

end Region
