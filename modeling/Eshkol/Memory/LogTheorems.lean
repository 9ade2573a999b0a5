import Eshkol.Distributed.RgaTheorems
import Eshkol.Memory.Log

/-!
# Merging event logs

Logs that append and merge are sequences to which nothing is inserted but at the end and from which
nothing is deleted, so that every event in them is shown.
-/

namespace Memory

open Scheme (Datum Text DoubleText)
open Distributed Replication Forest

variable {δ : Type}

variable [DecidableEq δ] [DoubleText δ]

/-- Replicas of an event log, under their node names. An append is labelled with its event and, if
it returns, the entry of the event. -/
def memorySystem (sha256 : Text → Text) : System (Datum δ) (MemoryLog δ) (Datum δ × Datum δ)
    (Datum δ × Option (RgaEntry (Datum δ) (Datum δ))) where
  init := MemoryLog.make
  update _ u log := ((log.append sha256 u.1 u.2).map Prod.snd).getD log
  label _ u log :=
    match log.propose sha256 u.1 u.2 with
    | some proposal => (proposal.event, log.rga.lastId.map fun last =>
        ⟨log.rga.nextId log.node, last, proposal.event, false⟩)
    | none => (.null, none)
  absorbs s t u := s.merge t = some u

/-- The worlds of event logs. -/
abbrev MemoryWorld (δ : Type) := World (Datum δ) (MemoryLog δ) (Datum δ × Datum δ)
  (Datum δ × Option (RgaEntry (Datum δ) (Datum δ)))

/-- The sequences of the logs. -/
def rgaWorld (w : MemoryWorld δ) : RgaWorld (Datum δ) (Datum δ) :=
  w.map MemoryLog.rga (fun label => .append label.1) Prod.snd

/-- The log is one of the node, and its clock is the clock of its sequence. -/
structure MemoryLog.OwnedBy (node : Datum δ) (log : MemoryLog δ) : Prop where
  node_eq : log.node = node
  vclock_eq : log.vclock = clockDatum log.rga.clock

variable {sha256 : Text → Text} {log : MemoryLog δ} {node : Datum δ}

/-- What the next event of a log is whose clock is the clock of its sequence. -/
lemma MemoryLog.OwnedBy.propose_eq (sha256 : Text → Text) (type payload : Datum δ)
    (h : log.OwnedBy node) :
    ∃ id, log.propose sha256 type payload = some ⟨clockDatum (log.rga.clock.tick node), id,
      makeEvent id log.prev (clockDatum (log.rga.clock.tick node)) node type payload⟩ := by
  refine ⟨eventContentHash sha256 node log.prev (clockDatum (log.rga.clock.tick node)) type payload,
    ?_⟩
  rw [MemoryLog.propose, h.node_eq, h.vclock_eq, vectorClockTick_clockDatum, Option.map_some]

/-- What logs do is what their sequences do when they append the events. -/
lemma refinement : Refinement (@memorySystem δ _ _ sha256) (rgaSystem (Datum δ) (Datum δ))
    MemoryLog.rga (fun label => .append label.1) Prod.snd MemoryLog.OwnedBy where
  own_init _ := ⟨rfl, rfl⟩
  own_update {r log} u hown := by
    obtain ⟨id, hpropose⟩ := hown.propose_eq sha256 u.1 u.2
    show (((log.append sha256 u.1 u.2).map Prod.snd).getD log).OwnedBy r
    rw [MemoryLog.append, hpropose, Option.bind_eq_bind, Option.bind_some, MemoryLog.advance,
      Rga.append]
    cases log.rga.lastId with
    | none => exact hown
    | some last =>
      refine ⟨hown.node_eq, ?_⟩
      show clockDatum _ = clockDatum (log.rga.clock.tick log.node)
      rw [hown.node_eq]
  own_absorb {r r' s t u} hs ht habsorb := by
    have hmerge : s.merge t = some u := habsorb
    rw [MemoryLog.merge, hs.vclock_eq, ht.vclock_eq, vectorClockMerge_clockDatum] at hmerge
    obtain rfl := Option.some.inj hmerge
    exact ⟨hs.node_eq, rfl⟩
  init _ := rfl
  update {r log} u hown := by
    obtain ⟨id, hpropose⟩ := hown.propose_eq sha256 u.1 u.2
    simp only [memorySystem, rgaSystem, MemoryLog.append, hpropose, Option.bind_eq_bind,
      Option.bind_some, MemoryLog.advance, hown.node_eq]
    cases log.rga.append r _ with
    | none => rfl
    | some rga => rfl
  label {r log} u hown := by
    obtain ⟨id, hpropose⟩ := hown.propose_eq sha256 u.1 u.2
    simp only [memorySystem, rgaSystem, hpropose, hown.node_eq]
  absorb {r r' s t u} hs ht habsorb := by
    have hmerge : s.merge t = some u := habsorb
    rw [MemoryLog.merge, hs.vclock_eq, ht.vclock_eq, vectorClockMerge_clockDatum] at hmerge
    obtain rfl := Option.some.inj hmerge
    exact .inl rfl

/-! ## Rooted sequences -/

section rooted

variable {log : RgaLog (Datum δ) (Datum δ)} {s t : Snapshot (Rga (Datum δ) (Datum δ))}

/-- Every entry is below the root. -/
def Rooted (entries : List (RgaEntry (Datum δ) (Datum δ))) : Prop :=
  ∀ e ∈ entries, Below (rgaParent entries) e.prev rgaRootId

lemma Rooted.merge (hlog : IdsUnique log) (hs : RgaRepresents log s) (ht : RgaRepresents log t)
    (hrs : Rooted s.state.entries) (hrt : Rooted t.state.entries) :
    Rooted (s.state.merge t.state).entries := by
  have hm := hs.merge hlog ht
  have hinserted := hs.mem_inserted_merge hlog ht
  intro e he
  rcases (hinserted _).1 (List.mem_map_of_mem he) with hmem | hmem
  · obtain ⟨d, hd, heq⟩ := List.mem_map.1 hmem
    have hprev : d.prev = e.prev := congrArg (fun x => x.prev) heq
    rw [← hprev]
    exact below_mono hs.distinct hm.distinct (fun f hf => (hinserted f).2 (.inl hf)) (hrs d hd)
  · obtain ⟨d, hd, heq⟩ := List.mem_map.1 hmem
    have hprev : d.prev = e.prev := congrArg (fun x => x.prev) heq
    rw [← hprev]
    exact below_mono ht.distinct hm.distinct (fun f hf => (hinserted f).2 (.inr hf)) (hrt d hd)

lemma Rooted.append (value : Datum δ) (hlog : IdsUnique log) (hs : RgaRepresents log s) {r : Datum δ}
    (hcurrent : System.Current log r s) (hr : Rooted s.state.entries) :
    Rooted ((s.state.append r value).getD s.state).entries := by
  obtain ⟨nodes, hnodes⟩ := visibleFrom_isSome hs.distinct (hs.root_notMem hlog)
  obtain ⟨last, hlast⟩ : ∃ last, last = (nodes.map RgaEntry.id).getLast?.getD rgaRootId := ⟨_, rfl⟩
  have hfresh := nextId_notMem hlog hs hcurrent
  rw [Rga.append_eq r value hnodes, ← hlast]
  show Rooted (rgaEntrySet _ _)
  rw [entrySet_of_notMem hfresh]
  have hdistinct : DistinctIds (s.state.entries ++ [⟨s.state.nextId r, last, value, false⟩]) := by
    rw [← entrySet_of_notMem hfresh]
    exact hs.distinct.entrySet
  have hmono := fun p => below_mono (p := p) (q := rgaRootId) hs.distinct hdistinct fun f hf => by
    rw [List.map_append]
    exact List.mem_append_left _ hf
  intro e he
  rcases List.mem_append.1 he with he | he
  · exact hmono _ (hr e he)
  · obtain rfl := List.mem_singleton.1 he
    exact hmono _ (hlast ▸ below_last hs.distinct hnodes)

end rooted

/-! ## What the logs of a run show -/

section runs

variable {w : MemoryWorld δ} {s t : Snapshot (MemoryLog δ)}

/-- The sequences of the logs of a run are those of a run of sequences. -/
lemma represents (h : (memorySystem sha256).Reachable w) : IdsUnique (rgaWorld w).log ∧
    System.AllSnapshots (fun s => RgaRepresents (rgaWorld w).log (s.map MemoryLog.rga)) w := by
  obtain ⟨hlog, hreplica, hsent⟩ := rgaInvariants.reachable (refinement.reachable h).1
  exact ⟨hlog, hreplica, fun s hs => hsent _ (List.mem_map_of_mem hs)⟩

end runs

variable {w : MemoryWorld δ} {s t : Snapshot (MemoryLog δ)}

end Memory
