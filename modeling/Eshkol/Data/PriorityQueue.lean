import Eshkol.Scheme.Primitives
import Mathlib.Algebra.Group.Defs
import Mathlib.Data.Multiset.AddSub

/-!
# The priority queue

A binary heap of pairs in a vector that grows, ordered by a comparator on the keys.
-/

namespace PriorityQueue

open Scheme

/-- What ends a call without a result: an error, an access outside a vector, or the `car` of `#f`. -/
inductive Fault where
  | raised (e : SchemeError)
  | range
  | notPair
deriving DecidableEq

variable {K A ν : Type}

/-- What a vector of the queue holds: a pair of key and item, or `#f`. -/
abbrev Slot (K A : Type) := Option (K × A)

/-- `#(data-vector size compare)`. -/
structure Pq (K A ν : Type) where
  data : List (Slot K A)
  size : ℕ
  compare : K → K → ν

/-- `vector-ref`. -/
def vectorRef (v : List (Slot K A)) (k : ℕ) : Except Fault (Slot K A) :=
  match v[k]? with
  | some x => .ok x
  | none => .error .range

/-- `vector-set!`. -/
def vectorSet (v : List (Slot K A)) (k : ℕ) (x : Slot K A) : Except Fault (List (Slot K A)) :=
  if k < v.length then .ok (v.set k x) else .error .range

/-- `(car (vector-ref data i))`. -/
def keyAt (data : List (Slot K A)) (i : ℕ) : Except Fault K := do
  match ← vectorRef data i with
  | some e => .ok e.1
  | none => .error .notPair

/-- The `let` of the sifts that exchanges two slots. -/
def exchange (data : List (Slot K A)) (i j : ℕ) : Except Fault (List (Slot K A)) := do
  let tmp ← vectorRef data i
  let x ← vectorRef data j
  let data ← vectorSet data i x
  vectorSet data j tmp

/-- `make-pq` with a comparator. -/
def makePq (compare : K → K → ν) : Pq K A ν := ⟨List.replicate 16 none, 0, compare⟩

/-- The comparator of `make-pq` without one. -/
def defaultCompare [Sub K] (a b : K) : K := a - b

/-- `pq-empty?`. -/
def pqEmpty (pq : Pq K A ν) : Bool := pq.size == 0

/-- `pq-copy-data`. -/
def pqCopyData (src dst : List (Slot K A)) (i n : ℕ) : Except Fault (List (Slot K A)) :=
  if i ≥ n then .ok dst
  else do
    let x ← vectorRef src i
    let dst ← vectorSet dst i x
    pqCopyData src dst (i + 1) n
termination_by n - i

/-- `pq-ensure-capacity!`. -/
def pqEnsureCapacity (pq : Pq K A ν) (want : ℕ) : Except Fault (Pq K A ν) :=
  if want ≥ pq.data.length then do
    let newVec ← pqCopyData pq.data (List.replicate (2 * pq.data.length) none) 0 pq.data.length
    return { pq with data := newVec }
  else .ok pq

section comparator

variable [Zero ν] [LT ν] [DecidableLT ν]

/-- `pq-sift-up`. -/
def pqSiftUp (pq : Pq K A ν) (i : ℕ) : Except Fault (Pq K A ν) :=
  if i = 0 then .ok pq
  else do
    let parent := (i - 1) / 2
    let ki ← keyAt pq.data i
    let kp ← keyAt pq.data parent
    if pq.compare ki kp < 0 then
      let data ← exchange pq.data i parent
      pqSiftUp { pq with data := data } parent
    else return pq
termination_by i

/-- `pq-push!`. -/
def pqPush (pq : Pq K A ν) (key : K) (item : A) : Except Fault (Pq K A ν) := do
  let pq ← pqEnsureCapacity pq (pq.size + 1)
  let n := pq.size
  let data ← vectorSet pq.data n (some (key, item))
  pqSiftUp { pq with data := data, size := n + 1 } n

/-- What `smallest` can be: the position itself, or one after it in the queue. -/
abbrev Smallest (i n : ℕ) := { s : ℕ // s = i ∨ i < s ∧ s < n }

/-- The test of `pq-sift-down` that makes a child `smallest`. -/
def smallerChild (pq : Pq K A ν) {i : ℕ} (child : ℕ) (hchild : i < child)
    (smallest : Smallest i pq.size) : Except Fault (Smallest i pq.size) :=
  if h : child < pq.size then do
    let kc ← keyAt pq.data child
    let ks ← keyAt pq.data smallest
    return if pq.compare kc ks < 0 then ⟨child, .inr ⟨hchild, h⟩⟩ else smallest
  else .ok smallest

/-- `pq-sift-down`. -/
def pqSiftDown (pq : Pq K A ν) (i : ℕ) : Except Fault (Pq K A ν) := do
  let smallest ← smallerChild pq (2 * i + 1) (by omega) ⟨i, .inl rfl⟩
  let smallest ← smallerChild pq (2 * i + 2) (by omega) smallest
  if smallest.1 ≠ i then
    let data ← exchange pq.data i smallest
    pqSiftDown { pq with data := data } smallest
  else return pq
termination_by pq.size - i
decreasing_by
  rename_i h
  have := smallest.2.resolve_left h
  show pq.size - smallest.1 < pq.size - i
  omega

/-- `pq-pop!`. -/
def pqPop (pq : Pq K A ν) : Except Fault (Slot K A × Pq K A ν) :=
  if pqEmpty pq then .error (.raised ⟨"pq-pop!: priority queue is empty", []⟩)
  else do
    let top ← vectorRef pq.data 0
    let n := pq.size
    let last ← vectorRef pq.data (n - 1)
    let data ← vectorSet pq.data 0 last
    let data ← vectorSet data (n - 1) none
    let pq := { pq with data := data, size := n - 1 }
    let pq ← if pq.size > 1 then pqSiftDown pq 0 else .ok pq
    return (top, pq)

/-- `pq-peek`. -/
def pqPeek (pq : Pq K A ν) : Except Fault (Slot K A) :=
  if pqEmpty pq then .error (.raised ⟨"pq-peek: priority queue is empty", []⟩)
  else vectorRef pq.data 0

/-! ## Sequences of calls -/

inductive Call (K A : Type) where
  | push (key : K) (item : A)
  | pop

/-- What a call comes to: a caller may catch an error. -/
inductive Outcome (K A : Type) where
  | pushed
  | popped (top : Slot K A)
  | raised (e : SchemeError)

/-- A call and the queue after it, which an error leaves as it was. -/
def pqCall (pq : Pq K A ν) : Call K A → Except Fault (Outcome K A × Pq K A ν)
  | .push key item => do
    let pq ← pqPush pq key item
    return (.pushed, pq)
  | .pop =>
    match pqPop pq with
    | .ok (top, pq) => .ok (.popped top, pq)
    | .error (.raised e) => .ok (.raised e, pq)
    | .error fault => .error fault

def pqCalls : Pq K A ν → List (Call K A) → Except Fault (List (Outcome K A) × Pq K A ν)
  | pq, [] => .ok ([], pq)
  | pq, c :: cs => do
    let (outcome, pq) ← pqCall pq c
    let (outcomes, pq) ← pqCalls pq cs
    return (outcome :: outcomes, pq)

end comparator

/-! ## What the queue is for -/

section purpose

variable [Zero ν] [LT ν] (compare : K → K → ν)

/-- No key comes before the other and after it, and to be not after is transitive. -/
structure TotalPreorder : Prop where
  asymm : ∀ {a b}, compare a b < 0 → ¬ compare b a < 0
  trans : ∀ {a b c}, ¬ compare b a < 0 → ¬ compare c b < 0 → ¬ compare c a < 0

/-- Calls on a multiset of pairs, from which a pop takes one that no other comes before. -/
inductive Serves : Multiset (K × A) → List (Call K A) → List (Outcome K A) → Multiset (K × A) → Prop
  | done (s : Multiset (K × A)) : Serves s [] [] s
  | push {s s' : Multiset (K × A)} {cs : List (Call K A)} {outcomes : List (Outcome K A)}
      (key : K) (item : A) (h : Serves ((key, item) ::ₘ s) cs outcomes s') :
      Serves s (.push key item :: cs) (.pushed :: outcomes) s'
  | pop {s s' : Multiset (K × A)} {cs : List (Call K A)} {outcomes : List (Outcome K A)}
      (top : K × A) (hmin : ∀ e ∈ s, ¬ compare e.1 top.1 < 0) (h : Serves s cs outcomes s') :
      Serves (top ::ₘ s) (.pop :: cs) (.popped (some top) :: outcomes) s'
  | empty {s' : Multiset (K × A)} {cs : List (Call K A)} {outcomes : List (Outcome K A)}
      (h : Serves 0 cs outcomes s') : Serves 0 (.pop :: cs)
        (.raised ⟨"pq-pop!: priority queue is empty", []⟩ :: outcomes) s'

/-- The pairs that calls push. -/
def pushed : List (Call K A) → Multiset (K × A)
  | [] => 0
  | .push key item :: cs => (key, item) ::ₘ pushed cs
  | .pop :: cs => pushed cs

/-- The pairs that calls popped. -/
def popped : List (Outcome K A) → Multiset (K × A)
  | [] => 0
  | .popped (some top) :: outcomes => top ::ₘ popped outcomes
  | .popped none :: outcomes => popped outcomes
  | .pushed :: outcomes => popped outcomes
  | .raised _ :: outcomes => popped outcomes

/-- The pairs in the slots that the queue uses. -/
def stored (pq : Pq K A ν) : Multiset (K × A) := ((pq.data.take pq.size).filterMap id : List (K × A))

/-- The slots that the queue uses have pairs, the others `#f`, and no pair comes before the one over
it. -/
structure HeapOrdered (pq : Pq K A ν) : Prop where
  room : pq.size < pq.data.length
  pairs : ∀ i < pq.size, ∃ e, pq.data[i]? = some (some e)
  cleared : ∀ i, pq.size ≤ i → i < pq.data.length → pq.data[i]? = some none
  order : ∀ i, 0 < i → i < pq.size → ∀ e upper, pq.data[i]? = some (some e) →
    pq.data[(i - 1) / 2]? = some (some upper) → ¬ pq.compare e.1 upper.1 < 0

end purpose

end PriorityQueue
