import Eshkol.Region.Memory
import Mathlib.Data.List.Nodup

/-!
# The current allocation arena

One process-wide slot, `__global_arena`, says where allocations go. `with-region` redirects it to the
region's arena and puts the displaced arena back on the way out; a parallel scope redirects it to the
root arena and puts the displaced arena back when the last overlapping scope ends. Regions nest in
each thread; scopes begin and end anywhere.
-/

namespace Region

/-- An arena: the process root, or the arena of a region. -/
inductive Arena where
  | root
  | region (r : ℕ)
deriving DecidableEq, Repr

/-- One `with-region` that a thread is inside: its region, whether its body was reached, and the
arena that `eshkol_region_enter` displaced; `none` stands for `REGION_NO_HIJACK`. -/
structure Frame where
  region : ℕ
  entered : Bool
  saved : Option Arena
deriving DecidableEq, Repr

/-- The thread-local state: `__region_stack`, the `allocation_domain` of the memory context, and the
frames of the code that runs on the thread. -/
structure Thread where
  worker : Bool
  domain : Option Arena
  regionStack : List ℕ
  frames : List Frame

/-- The shared state. Regions are numbered in the order of their creation; `popped` are those that
`region_pop` has destroyed. -/
structure Arenas where
  globalArena : Arena
  parallelDepth : ℕ
  savedAtParallel : Option Arena
  threads : ℕ → Thread
  nextRegion : ℕ
  popped : List ℕ

namespace Arenas

def setThread (s : Arenas) (t : ℕ) (th : Thread) : Arenas :=
  { s with threads := Function.update s.threads t th }

/-- `eshkol_current_arena` on a thread. -/
def currentArena (s : Arenas) (t : ℕ) : Arena :=
  if s.parallelDepth ≠ 0 then s.globalArena
  else (s.threads t).domain.getD s.globalArena

/-- `region_create` and `region_push`. On a full stack the region is not pushed, and the code goes
on. -/
def regionPush (s : Arenas) (t : ℕ) : Arenas :=
  let th := s.threads t
  let stack := if maxRegionDepth ≤ th.regionStack.length then th.regionStack
    else s.nextRegion :: th.regionStack
  { s.setThread t { th with
      regionStack := stack, frames := ⟨s.nextRegion, false, none⟩ :: th.frames } with
    nextRegion := s.nextRegion + 1 }

/-- `eshkol_region_enter` on the region of the innermost frame. -/
def regionEnter (s : Arenas) (t : ℕ) : Option Arenas :=
  let th := s.threads t
  match th.frames with
  | ⟨r, false, none⟩ :: frames =>
    if s.parallelDepth ≠ 0 ∨ th.worker = true then
      some (s.setThread t { th with frames := ⟨r, true, none⟩ :: frames })
    else
      some { s.setThread t { th with
          domain := some (.region r), frames := ⟨r, true, some s.globalArena⟩ :: frames } with
        globalArena := .region r }
  | _ => none

/-- `region_pop`: the region on top of the stack is destroyed. -/
def regionPop (s : Arenas) (t : ℕ) : Arenas :=
  let th := s.threads t
  match th.regionStack with
  | [] => s
  | r :: stack => { s.setThread t { th with regionStack := stack } with popped := r :: s.popped }

/-- `eshkol_region_leave`. -/
def regionLeave (s : Arenas) (t : ℕ) : Option Arena → Arenas
  | none => s
  | some saved =>
    { s.setThread t { s.threads t with domain := some saved } with globalArena := saved }

/-- The way out of a `with-region`: `region_pop`, and `eshkol_region_leave` right after it. -/
def regionExit (s : Arenas) (t : ℕ) : Option Arenas :=
  match (s.threads t).frames with
  | [] => none
  | frame :: frames =>
    let s := s.setThread t { s.threads t with frames := frames }
    some ((s.regionPop t).regionLeave t frame.saved)

/-- `eshkol_parallel_scope_begin`. -/
def scopeBegin (s : Arenas) : Arenas :=
  if s.parallelDepth = 0 then
    { s with parallelDepth := 1, savedAtParallel := some s.globalArena, globalArena := .root }
  else { s with parallelDepth := s.parallelDepth + 1 }

/-- `eshkol_parallel_scope_end`, of a scope that was begun. -/
def scopeEnd (s : Arenas) : Option Arenas :=
  match s.parallelDepth, s.savedAtParallel with
  | 1, some saved =>
    some { s with parallelDepth := 0, savedAtParallel := none, globalArena := saved }
  | depth + 2, _ => some { s with parallelDepth := depth + 1 }
  | _, _ => none

end Arenas

inductive Event where
  | push (t : ℕ)
  | enter (t : ℕ)
  | exit (t : ℕ)
  | scopeBegin
  | scopeEnd
deriving DecidableEq, Repr

/-- One call; undefined when it has no matching entry or begin. -/
def Arenas.step (s : Arenas) : Event → Option Arenas
  | .push t => some (s.regionPush t)
  | .enter t => s.regionEnter t
  | .exit t => s.regionExit t
  | .scopeBegin => some s.scopeBegin
  | .scopeEnd => s.scopeEnd

def Arenas.run : Arenas → List Event → Option Arenas
  | s, [] => some s
  | s, e :: es => (s.step e).bind (run · es)

/-- The state after the root arena was created; `workers` are the threads of the pool. -/
def Arenas.init (workers : ℕ → Bool) : Arenas where
  globalArena := .root
  parallelDepth := 0
  savedAtParallel := none
  threads t := ⟨workers t, none, [], []⟩
  nextRegion := 0
  popped := []

/-! ## Liveness -/

/-- The arena is not that of a popped region. -/
def Arenas.Live (s : Arenas) (a : Arena) : Prop := ∀ r, a = .region r → r ∉ s.popped

/-- The slot and every thread's current arena are live, and once everything is closed they are the
root. -/
structure Arenas.Safe (s : Arenas) : Prop where
  slot : s.Live s.globalArena
  current : ∀ t, s.Live (s.currentArena t)
  closed : (∀ t, (s.threads t).frames = []) → s.parallelDepth = 0 →
    s.globalArena = .root ∧ ∀ t, s.currentArena t = .root

/-- The frames of a thread that redirected the slot. -/
def Thread.hijacks (th : Thread) : List Frame := th.frames.filter (·.saved.isSome)

/-- What a call must meet: a region is pushed on a stack with room, entered outside parallel scopes
and off the pool only while no other thread has the slot redirected, and the last scope ends while
the region that was current when the first began is still open. -/
def Arenas.Allowed (s : Arenas) : Event → Prop
  | .push t => (s.threads t).regionStack.length < maxRegionDepth
  | .enter t => s.parallelDepth = 0 → (s.threads t).worker = false →
      ∀ t', t' ≠ t → (s.threads t').hijacks = []
  | .scopeEnd => s.parallelDepth = 1 → ∀ r, s.savedAtParallel = some (.region r) → r ∉ s.popped
  | _ => True

/-- Every call of the sequence meets its condition. -/
def Arenas.AllAllowed : Arenas → List Event → Prop
  | _, [] => True
  | s, e :: es => s.Allowed e ∧ ∀ s', s.step e = some s' → s'.AllAllowed es

/-! ## The invariant -/

/-- Where the slot points outside parallel scopes. -/
def topArena : List Frame → Arena
  | [] => .root
  | frame :: _ => .region frame.region

/-- Each redirection displaced the one below it. -/
def Stacked : List Frame → Prop
  | [] => True
  | frame :: frames => frame.saved = some (topArena frames) ∧ Stacked frames

/-- The regions of a thread are open, its own, and on its stack in the order of its frames. -/
structure Arenas.ThreadOk (s : Arenas) (th : Thread) : Prop where
  stack_eq : th.regionStack = th.frames.map Frame.region
  lt_next : ∀ frame ∈ th.frames, frame.region < s.nextRegion
  not_popped : ∀ frame ∈ th.frames, frame.region ∉ s.popped
  nodup : (th.frames.map Frame.region).Nodup
  stacked : Stacked th.hijacks
  domain : th.domain = some (topArena th.hijacks) ∨ (th.hijacks = [] ∧ th.domain = none)

/-- The slot with the redirections `hijacks` open: outside parallel scopes it follows them; in a
scope it is the root, and the arena to restore follows them; and once a region that the scope began
in is gone, the slot follows the others and the arena to restore is lost. -/
def Arenas.SlotOk (s : Arenas) (hijacks : List Frame) : Prop :=
  (s.parallelDepth = 0 ∧ s.globalArena = topArena hijacks) ∨
    (0 < s.parallelDepth ∧ s.globalArena = .root ∧ s.savedAtParallel = some (topArena hijacks)) ∨
    (0 < s.parallelDepth ∧ s.globalArena = topArena hijacks ∧
      ∃ r ∈ s.popped, s.savedAtParallel = some (.region r))

/-- `owner` is the one thread that may have the slot redirected. -/
structure Arenas.Inv (s : Arenas) (owner : ℕ) : Prop where
  threadOk : ∀ t, s.ThreadOk (s.threads t)
  disjoint : ∀ t t', t ≠ t' → ∀ frame ∈ (s.threads t).frames, ∀ frame' ∈ (s.threads t').frames,
    frame.region ≠ frame'.region
  popped_lt : ∀ r ∈ s.popped, r < s.nextRegion
  others : ∀ t, t ≠ owner → (s.threads t).hijacks = []
  slot : s.SlotOk (s.threads owner).hijacks

namespace Arenas

variable {s s' : Arenas} {o t : ℕ}

lemma live_root (s : Arenas) : s.Live .root := by
  intro r hr
  cases hr

lemma ThreadOk.live_top {th : Thread} (h : s.ThreadOk th) : s.Live (topArena th.hijacks) := by
  intro r hr
  cases hh : th.hijacks with
  | nil =>
    rw [hh] at hr
    cases hr
  | cons frame frames =>
    rw [hh] at hr
    cases hr
    have hmem : frame ∈ th.hijacks := hh ▸ List.mem_cons_self
    exact h.not_popped frame (List.mem_filter.1 hmem).1

/-- The invariant says that every current arena is live. -/
lemma Inv.safe (h : s.Inv o) : s.Safe := by
  have hslot : s.Live s.globalArena := by
    obtain ⟨-, hs⟩ | ⟨-, hs, -⟩ | ⟨-, hs, -⟩ := h.slot
    · exact hs ▸ (h.threadOk o).live_top
    · exact hs ▸ live_root s
    · exact hs ▸ (h.threadOk o).live_top
  refine ⟨hslot, fun t => ?_, fun hclosed hdepth => ?_⟩
  · rw [currentArena]
    by_cases hdepth : s.parallelDepth ≠ 0
    · rw [if_pos hdepth]
      exact hslot
    · rw [if_neg hdepth]
      obtain hd | ⟨-, hd⟩ := (h.threadOk t).domain
      · rw [hd]
        exact (h.threadOk t).live_top
      · rw [hd]
        exact hslot
  · have hnone : ∀ t, (s.threads t).hijacks = [] := fun t => by rw [Thread.hijacks, hclosed t]; rfl
    have hroot : s.globalArena = .root := by
      obtain ⟨-, hs⟩ | ⟨hpos, -⟩ | ⟨hpos, -⟩ := h.slot
      · rw [hs, hnone o]
        rfl
      · omega
      · omega
    refine ⟨hroot, fun t => ?_⟩
    rw [currentArena, if_neg (not_not.2 hdepth)]
    obtain hd | ⟨-, hd⟩ := (h.threadOk t).domain
    · rw [hd, hnone t]
      rfl
    · rw [hd]
      exact hroot

lemma inv_init (workers : ℕ → Bool) : (init workers).Inv o where
  threadOk t := ⟨rfl, by simp [init], by simp [init], by simp [init], trivial, .inr ⟨rfl, rfl⟩⟩
  disjoint := by simp [init]
  popped_lt := by simp [init]
  others t _ := rfl
  slot := .inl ⟨rfl, rfl⟩

/-! ## Calls that change one thread -/

section update
variable {th : Thread}

lemma ThreadOk.mono (h : s.ThreadOk th) (hnext : s.nextRegion ≤ s'.nextRegion)
    (hpop : ∀ frame ∈ th.frames, frame.region ∉ s'.popped) : s'.ThreadOk th :=
  ⟨h.stack_eq, fun frame hf => Nat.lt_of_lt_of_le (h.lt_next frame hf) hnext, hpop, h.nodup,
    h.stacked, h.domain⟩

/-- A call on thread `t` that pops no region of the others keeps what the invariant says of them. -/
lemma Inv.update {o' : ℕ} (h : s.Inv o) (hthreads : s'.threads = Function.update s.threads t th)
    (hnext : s.nextRegion ≤ s'.nextRegion) (hth : s'.ThreadOk th)
    (hframes : ∀ frame ∈ th.frames, frame.region = s.nextRegion ∨
      ∃ frame' ∈ (s.threads t).frames, frame.region = frame'.region)
    (hpopped : ∀ r ∈ s'.popped, r ∈ s.popped ∨ ∃ frame ∈ (s.threads t).frames, r = frame.region)
    (hothers : ∀ t', t' ≠ o' → (s'.threads t').hijacks = [])
    (hslot : s'.SlotOk (s'.threads o').hijacks) : s'.Inv o' := by
  have hself : s'.threads t = th := by simp [hthreads]
  have hother : ∀ t', t' ≠ t → s'.threads t' = s.threads t' := fun t' ht => by simp [hthreads, ht]
  -- a frame of another thread is none of `th`'s, and was not popped
  have hapart : ∀ t', t' ≠ t → ∀ frame ∈ th.frames, ∀ frame' ∈ (s.threads t').frames,
      frame.region ≠ frame'.region := by
    intro t' ht frame hframe frame' hframe'
    obtain hreg | ⟨old, hold, hreg⟩ := hframes frame hframe
    · have := (h.threadOk t').lt_next frame' hframe'
      omega
    · rw [hreg]
      exact h.disjoint t t' ht.symm old hold frame' hframe'
  refine ⟨fun t' => ?_, fun t₁ t₂ hne frame hframe frame' hframe' => ?_, fun r hr => ?_, hothers, hslot⟩
  · by_cases ht : t' = t
    · rw [ht, hself]
      exact hth
    · rw [hother t' ht]
      refine (h.threadOk t').mono hnext fun frame hframe hpop => ?_
      obtain hpop | ⟨old, hold, hreg⟩ := hpopped _ hpop
      · exact (h.threadOk t').not_popped frame hframe hpop
      · exact h.disjoint t' t ht frame hframe old hold hreg
  · by_cases ht₁ : t₁ = t
    · rw [ht₁, hself] at hframe
      have ht₂ : t₂ ≠ t := fun heq => hne (ht₁.trans heq.symm)
      rw [hother t₂ ht₂] at hframe'
      exact hapart t₂ ht₂ frame hframe frame' hframe'
    · rw [hother t₁ ht₁] at hframe
      by_cases ht₂ : t₂ = t
      · rw [ht₂, hself] at hframe'
        exact (hapart t₁ ht₁ frame' hframe' frame hframe).symm
      · rw [hother t₂ ht₂] at hframe'
        exact h.disjoint t₁ t₂ hne frame hframe frame' hframe'
  · obtain hr | ⟨frame, hframe, rfl⟩ := hpopped r hr
    · exact Nat.lt_of_lt_of_le (h.popped_lt r hr) hnext
    · exact Nat.lt_of_lt_of_le ((h.threadOk t).lt_next frame hframe) hnext

end update

/-- What is said of the slot depends on a thread's redirections only. -/
lemma hijacks_update {threads : ℕ → Thread} {th : Thread}
    (hth : th.hijacks = (threads t).hijacks) (t' : ℕ) :
    (Function.update threads t th t').hijacks = (threads t').hijacks := by
  by_cases ht : t' = t
  · rw [ht, Function.update_self, hth]
  · rw [Function.update_of_ne ht]

lemma Inv.push (h : s.Inv o) (hroom : (s.threads t).regionStack.length < maxRegionDepth) :
    (s.regionPush t).Inv o := by
  have hok := h.threadOk t
  have hthreads : (s.regionPush t).threads = Function.update s.threads t
      { s.threads t with
        regionStack := s.nextRegion :: (s.threads t).regionStack,
        frames := ⟨s.nextRegion, false, none⟩ :: (s.threads t).frames } := by
    simp only [regionPush, setThread, if_neg (Nat.not_le.2 hroom)]
  have hhij : ∀ t', ((s.regionPush t).threads t').hijacks = (s.threads t').hijacks := by
    rw [hthreads]
    exact hijacks_update rfl
  refine h.update hthreads (Nat.le_succ _) ⟨?_, ?_, ?_, ?_, hok.stacked, hok.domain⟩ ?_
    (fun r hr => .inl hr) (fun t' ht => (hhij t').trans (h.others t' ht)) ?_
  · simp [hok.stack_eq]
  · rintro frame (_ | ⟨_, hframe⟩)
    · exact Nat.lt_succ_self _
    · exact Nat.lt_succ_of_lt (hok.lt_next frame hframe)
  · rintro frame (_ | ⟨_, hframe⟩) hpop
    · exact absurd (h.popped_lt _ hpop) (Nat.lt_irrefl _)
    · exact hok.not_popped frame hframe hpop
  · refine List.nodup_cons.2 ⟨fun hmem => ?_, hok.nodup⟩
    obtain ⟨frame, hframe, hreg⟩ := List.mem_map.1 hmem
    have hlt := hok.lt_next frame hframe
    rw [hreg] at hlt
    exact Nat.lt_irrefl _ hlt
  · rintro frame (_ | ⟨_, hframe⟩)
    · exact .inl rfl
    · exact .inr ⟨frame, hframe, rfl⟩
  · rw [hhij o]
    exact h.slot

/-- The frame on top with another mark or another displaced arena. -/
lemma ThreadOk.retop {th th' : Thread} {frame frame' : Frame} {frames : List Frame}
    (h : s.ThreadOk th) (hframes : th.frames = frame :: frames)
    (hframes' : th'.frames = frame' :: frames) (hreg : frame'.region = frame.region)
    (hstack : th'.regionStack = th.regionStack) (hpop : s'.popped = s.popped)
    (hnext : s'.nextRegion = s.nextRegion) (hstacked : Stacked th'.hijacks)
    (hdomain : th'.domain = some (topArena th'.hijacks) ∨ (th'.hijacks = [] ∧ th'.domain = none)) :
    s'.ThreadOk th' := by
  have hmem : ∀ f ∈ th'.frames, ∃ f' ∈ th.frames, f.region = f'.region := by
    rw [hframes', hframes]
    rintro f (_ | ⟨_, hf⟩)
    · exact ⟨frame, List.mem_cons_self, hreg⟩
    · exact ⟨f, List.mem_cons_of_mem _ hf, rfl⟩
  have hmap : th'.frames.map Frame.region = th.frames.map Frame.region := by
    rw [hframes', hframes, List.map_cons, List.map_cons, hreg]
  refine ⟨by rw [hstack, h.stack_eq, hmap], fun f hf => ?_, fun f hf => ?_, by rw [hmap]; exact h.nodup,
    hstacked, hdomain⟩
  · obtain ⟨f', hf', heq⟩ := hmem f hf
    rw [heq, hnext]
    exact h.lt_next f' hf'
  · obtain ⟨f', hf', heq⟩ := hmem f hf
    rw [heq, hpop]
    exact h.not_popped f' hf'

lemma Inv.enter (h : s.Inv o) (halone : s.Allowed (.enter t)) (hstep : s.regionEnter t = some s') :
    ∃ o', s'.Inv o' := by
  have hok := h.threadOk t
  rw [regionEnter] at hstep
  rcases hfr : (s.threads t).frames with _ | ⟨⟨r, _ | _, _ | _⟩, frames⟩ <;>
    simp only [hfr, reduceCtorEq] at hstep
  have hhij : (s.threads t).hijacks = frames.filter (·.saved.isSome) := by simp [Thread.hijacks, hfr]
  -- the frames keep their regions
  have hold : ∀ saved, ∀ frame ∈ (⟨r, true, saved⟩ : Frame) :: frames, frame.region = s.nextRegion ∨
      ∃ frame' ∈ (s.threads t).frames, frame.region = frame'.region := by
    rw [hfr]
    rintro saved frame (_ | ⟨_, hframe⟩)
    · exact .inr ⟨_, List.mem_cons_self, rfl⟩
    · exact .inr ⟨frame, List.mem_cons_of_mem _ hframe, rfl⟩
  by_cases hdecline : s.parallelDepth ≠ 0 ∨ (s.threads t).worker = true
  · rw [if_pos hdecline] at hstep
    cases hstep
    have hmark : ({ s.threads t with frames := ⟨r, true, none⟩ :: frames } : Thread).hijacks =
        (s.threads t).hijacks := hhij.symm
    have hsame : ∀ t', ((s.setThread t { s.threads t with frames := ⟨r, true, none⟩ :: frames }).threads
        t').hijacks = (s.threads t').hijacks := hijacks_update hmark
    refine ⟨o, h.update rfl (Nat.le_refl _) ?_ (hold none) (fun r hr => .inl hr)
      (fun t' ht => (hsame t').trans (h.others t' ht)) ?_⟩
    · refine hok.retop hfr rfl rfl rfl rfl rfl ?_ ?_
      · rw [hmark]
        exact hok.stacked
      · rw [hmark]
        exact hok.domain
    · rw [hsame o]
      exact h.slot
  · rw [if_neg hdecline] at hstep
    cases hstep
    push Not at hdecline
    obtain ⟨hdepth, hworker⟩ := hdecline
    have hothers := halone hdepth (by simpa using hworker)
    -- no other thread has the slot redirected, so it follows this one
    have hslot : s.globalArena = topArena (s.threads t).hijacks := by
      obtain ⟨-, hs⟩ | ⟨hpos, -⟩ | ⟨hpos, -⟩ := h.slot
      · by_cases hto : t = o
        · rw [hto, hs]
        · rw [hs, hothers o (Ne.symm hto), h.others t hto]
      · omega
      · omega
    refine ⟨t, h.update rfl (Nat.le_refl _) ?_ (hold _) (fun r hr => .inl hr) (fun t' ht => ?_) ?_⟩
    · refine hok.retop hfr rfl rfl rfl rfl rfl ?_ (.inl rfl)
      exact ⟨by rw [hslot, hhij], hhij ▸ hok.stacked⟩
    · simp only [setThread, Function.update_of_ne ht]
      exact hothers t' ht
    · refine .inl ⟨hdepth, ?_⟩
      simp only [setThread, Function.update_self]
      rfl

/-- The frames below the top, when its region is popped. -/
lemma ThreadOk.tail {th th' : Thread} {frame : Frame} {frames : List Frame} (h : s.ThreadOk th)
    (hframes : th.frames = frame :: frames) (hframes' : th'.frames = frames)
    (hstack : th'.regionStack = frames.map Frame.region)
    (hpop : s'.popped = frame.region :: s.popped) (hnext : s'.nextRegion = s.nextRegion)
    (hstacked : Stacked th'.hijacks)
    (hdomain : th'.domain = some (topArena th'.hijacks) ∨ (th'.hijacks = [] ∧ th'.domain = none)) :
    s'.ThreadOk th' := by
  have hnodup := h.nodup
  rw [hframes, List.map_cons, List.nodup_cons] at hnodup
  have hmem : ∀ f ∈ frames, f ∈ th.frames := fun f hf => hframes ▸ List.mem_cons_of_mem _ hf
  refine ⟨by rw [hstack, hframes'], fun f hf => ?_, fun f hf => ?_, by rw [hframes']; exact hnodup.2,
    hstacked, hdomain⟩
  · rw [hframes'] at hf
    rw [hnext]
    exact h.lt_next f (hmem f hf)
  · rw [hframes'] at hf
    rw [hpop, List.mem_cons, not_or]
    refine ⟨fun heq => hnodup.1 ?_, h.not_popped f (hmem f hf)⟩
    exact List.mem_map.2 ⟨f, hf, heq⟩

/-- The thread and the state after the innermost frame is left. -/
lemma regionExit_eq {frame : Frame} {frames : List Frame} {r : ℕ} {stack : List ℕ}
    (hframes : (s.threads t).frames = frame :: frames)
    (hstack : (s.threads t).regionStack = r :: stack) :
    s.regionExit t = some { s with
      threads := Function.update s.threads t
        ⟨(s.threads t).worker, frame.saved.or (s.threads t).domain, stack, frames⟩
      globalArena := frame.saved.getD s.globalArena
      popped := r :: s.popped } := by
  cases hsaved : frame.saved <;>
    simp [regionExit, hframes, regionPop, hstack, regionLeave, setThread, hsaved]

/-- Leaving a region restores the arena before it. -/
lemma Inv.exit (h : s.Inv o) (hstep : s.regionExit t = some s') : s'.Inv o := by
  have hok := h.threadOk t
  rcases hfr : (s.threads t).frames with _ | ⟨frame, frames⟩
  · simp [regionExit, hfr] at hstep
  have hstack : (s.threads t).regionStack = frame.region :: frames.map Frame.region := by
    rw [hok.stack_eq, hfr, List.map_cons]
  rw [regionExit_eq hfr hstack, Option.some.injEq] at hstep
  have hold : ∀ f ∈ frames, f.region = s.nextRegion ∨
      ∃ f' ∈ (s.threads t).frames, f.region = f'.region := by
    intro f hf
    exact .inr ⟨f, hfr ▸ List.mem_cons_of_mem _ hf, rfl⟩
  have hgone : ∀ r ∈ frame.region :: s.popped,
      r ∈ s.popped ∨ ∃ f ∈ (s.threads t).frames, r = f.region := by
    rintro r (_ | ⟨_, hr⟩)
    · exact .inr ⟨frame, hfr ▸ List.mem_cons_self, rfl⟩
    · exact .inl hr
  cases hsaved : frame.saved with
  | none =>
    -- the slot stays where it is
    rw [hsaved] at hstep
    have hhij : (s.threads t).hijacks = frames.filter (·.saved.isSome) := by
      simp [Thread.hijacks, hfr, hsaved]
    have hsame : ∀ t', (s'.threads t').hijacks = (s.threads t').hijacks := by
      rw [← hstep]
      exact hijacks_update hhij.symm
    subst hstep
    refine h.update rfl (Nat.le_refl _) (hok.tail hfr rfl rfl rfl rfl ?_ ?_) hold hgone
      (fun t' ht => (hsame t').trans (h.others t' ht)) ?_
    · have hstacked := hok.stacked
      rw [hhij] at hstacked
      exact hstacked
    · have hdomain := hok.domain
      rw [hhij] at hdomain
      exact hdomain
    · rw [hsame o]
      obtain hs | hs | ⟨hpos, hs, r, hr, hlost⟩ := h.slot
      · exact .inl hs
      · exact .inr (.inl hs)
      · exact .inr (.inr ⟨hpos, hs, r, List.mem_cons_of_mem _ hr, hlost⟩)
  | some a =>
    rw [hsaved] at hstep
    have hhij : (s.threads t).hijacks = frame :: frames.filter (·.saved.isSome) := by
      simp [Thread.hijacks, hfr, hsaved]
    have hto : t = o := by
      by_contra hne
      rw [h.others t hne] at hhij
      cases hhij
    subst hto
    have hstacked := hok.stacked
    rw [hhij, Stacked, hsaved, Option.some.injEq] at hstacked
    obtain ⟨rfl, hrest⟩ := hstacked
    subst hstep
    have hself : ∀ threads : ℕ → Thread, ∀ th, (Function.update threads t th) t = th :=
      fun threads th => Function.update_self t th threads
    refine h.update rfl (Nat.le_refl _) (hok.tail hfr rfl rfl rfl rfl hrest (.inl rfl)) hold hgone
      (fun t' ht => ?_) ?_
    · simp only [Function.update_of_ne ht]
      exact h.others t' ht
    · simp only [hself, Option.getD_some]
      obtain ⟨hzero, -⟩ | ⟨hpos, -, hs⟩ | ⟨hpos, -, r, hr, hlost⟩ := h.slot
      · exact .inl ⟨hzero, rfl⟩
      · rw [hhij] at hs
        exact .inr (.inr ⟨hpos, rfl, frame.region, List.mem_cons_self, hs⟩)
      · exact .inr (.inr ⟨hpos, rfl, r, List.mem_cons_of_mem _ hr, hlost⟩)

/-! ## Parallel scopes -/

lemma Inv.scopeBegin (h : s.Inv o) : s.scopeBegin.Inv o := by
  rw [Arenas.scopeBegin]
  by_cases hdepth : s.parallelDepth = 0
  · rw [if_pos hdepth]
    refine ⟨fun t => ?_, h.disjoint, h.popped_lt, h.others, ?_⟩
    · exact (h.threadOk t).mono (Nat.le_refl _) (h.threadOk t).not_popped
    · obtain ⟨-, hs⟩ | ⟨hpos, -⟩ | ⟨hpos, -⟩ := h.slot
      · exact .inr (.inl ⟨Nat.one_pos, rfl, by rw [hs]⟩)
      · omega
      · omega
  · rw [if_neg hdepth]
    refine ⟨fun t => ?_, h.disjoint, h.popped_lt, h.others, ?_⟩
    · exact (h.threadOk t).mono (Nat.le_refl _) (h.threadOk t).not_popped
    · obtain ⟨hzero, -⟩ | ⟨-, hs⟩ | ⟨-, hs⟩ := h.slot
      · exact absurd hzero hdepth
      · exact .inr (.inl ⟨Nat.succ_pos _, hs⟩)
      · exact .inr (.inr ⟨Nat.succ_pos _, hs⟩)

lemma Inv.scopeEnd (h : s.Inv o) (hopen : s.Allowed .scopeEnd) (hstep : s.scopeEnd = some s') :
    s'.Inv o := by
  rw [Arenas.scopeEnd] at hstep
  split at hstep
  case h_1 saved hdepth hsaved =>
    cases hstep
    refine ⟨fun t => ?_, h.disjoint, h.popped_lt, h.others, ?_⟩
    · exact (h.threadOk t).mono (Nat.le_refl _) (h.threadOk t).not_popped
    · obtain ⟨hzero, -⟩ | ⟨-, -, hs⟩ | ⟨-, -, r, hr, hs⟩ := h.slot
      · omega
      · rw [hsaved, Option.some.injEq] at hs
        exact .inl ⟨rfl, hs⟩
      · exact absurd hr (hopen hdepth r hs)
  case h_2 depth hdepth =>
    cases hstep
    refine ⟨fun t => ?_, h.disjoint, h.popped_lt, h.others, ?_⟩
    · exact (h.threadOk t).mono (Nat.le_refl _) (h.threadOk t).not_popped
    · obtain ⟨hzero, -⟩ | ⟨-, hs⟩ | ⟨-, hs⟩ := h.slot
      · omega
      · exact .inr (.inl ⟨Nat.succ_pos _, hs⟩)
      · exact .inr (.inr ⟨Nat.succ_pos _, hs⟩)
  case h_3 => cases hstep

/-! ## Runs -/

lemma Inv.step (h : s.Inv o) {e : Event} (hallowed : s.Allowed e) (hstep : s.step e = some s') :
    ∃ o', s'.Inv o' := by
  cases e with
  | push t =>
    cases hstep
    exact ⟨o, h.push hallowed⟩
  | enter t => exact h.enter hallowed hstep
  | exit t => exact ⟨o, h.exit hstep⟩
  | scopeBegin =>
    cases hstep
    exact ⟨o, h.scopeBegin⟩
  | scopeEnd => exact ⟨o, h.scopeEnd hallowed hstep⟩

/-- Run lemma: allowed events keep the invariant. -/
lemma Inv.run (h : s.Inv o) {es : List Event} (hallowed : s.AllAllowed es)
    (hrun : s.run es = some s') : ∃ o', s'.Inv o' := by
  induction es generalizing s o with
  | nil =>
    cases hrun
    exact ⟨o, h⟩
  | cons e es ih =>
    obtain ⟨s₁, hstep, hrest⟩ := Option.bind_eq_some_iff.1 hrun
    obtain ⟨o₁, h₁⟩ := h.step hallowed.1 hstep
    exact ih h₁ (hallowed.2 s₁ hstep) hrest

/-- In every interleaving whose calls meet their conditions, the current arena is live in the state
reached, and the root once everything is closed. -/
theorem current_arena_live (workers : ℕ → Bool) (es : List Event)
    (hallowed : (init workers).AllAllowed es) (s : Arenas) (hrun : (init workers).run es = some s) :
    s.Safe := by
  obtain ⟨o, h⟩ := (inv_init workers (o := 0)).run hallowed hrun
  exact h.safe

/-- A region, a parallel scope inside it, and a region on a pool thread inside that. -/
def nestedScope : List Event :=
  [.push 0, .enter 0, .scopeBegin, .push 1, .enter 1, .exit 1, .scopeEnd, .exit 0]

lemma nestedScope_allowed : (init (· = 1)).AllAllowed nestedScope := by
  simp [nestedScope, AllAllowed, Allowed, Arenas.step, regionPush, regionEnter, regionExit, regionPop,
    regionLeave, Arenas.scopeBegin, Arenas.scopeEnd, setThread, init, maxRegionDepth, Thread.hijacks]
  intro t' ht
  simp [ht]

theorem current_arena_live_nestedScope :
    (init (· = 1)).AllAllowed nestedScope ∧
      ∃ s, (init (· = 1)).run nestedScope = some s ∧ s.Safe := by
  refine ⟨nestedScope_allowed, _, rfl, ?_⟩
  exact current_arena_live (· = 1) nestedScope nestedScope_allowed _ rfl

/-- A future that outlives the region it was started in. -/
theorem scope_outlives_region :
    ∃ s, (init fun _ => false).run [.push 0, .enter 0, .scopeBegin, .exit 0, .scopeEnd] = some s ∧
      ¬ s.Safe := by
  refine ⟨_, rfl, fun h => ?_⟩
  exact h.slot 0 rfl List.mem_cons_self

end Arenas

end Region
