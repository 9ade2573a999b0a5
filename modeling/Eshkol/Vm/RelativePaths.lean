import Eshkol.Vm.PathTheorems

/-!
# Relative paths

The relative path goes up from the components that only the first path has, and then down those that only the second
one has. Behind the first path it has the same components as the second.
-/

namespace Vm.Paths

lemma commonParts_le (fromParts toParts : List (List UInt8)) :
    commonParts fromParts toParts ≤ fromParts.length ∧ commonParts fromParts toParts ≤ toParts.length ∧
      fromParts.take (commonParts fromParts toParts) = toParts.take (commonParts fromParts toParts) := by
  induction fromParts generalizing toParts with
  | nil => simp [commonParts]
  | cons fromPart fromParts ih =>
    cases toParts with
    | nil => simp [commonParts]
    | cons toPart toParts =>
      obtain ⟨hfrom, hto, htake⟩ := ih toParts
      rw [commonParts]
      split_ifs with hsame
      · refine ⟨by rw [List.length_cons]; omega, by rw [List.length_cons]; omega, ?_⟩
        rw [List.take_succ_cons, List.take_succ_cons, hsame, htake]
      · exact ⟨Nat.zero_le _, Nat.zero_le _, rfl⟩

lemma commonParts_of_ne {fromPart toPart : List UInt8} (fromParts toParts : List (List UInt8))
    (h : fromPart ≠ toPart) : commonParts (fromPart :: fromParts) (toPart :: toParts) = 0 := by
  rw [commonParts, if_neg h]

/-- The way up leaves the first components. -/
lemma collectParts_up {parts : List (List UInt8)} (n : ℕ) (rest : List (List UInt8))
    (hroom : parts.length < maxParts) :
    collectParts parts (List.replicate n dotDot ++ rest) = collectParts (parts.take (parts.length - n)) rest := by
  induction n generalizing parts with
  | zero => rw [List.replicate_zero, List.nil_append, Nat.sub_zero, List.take_length]
  | succ n ih =>
    have hup : applyPart parts dotDot = parts.dropLast := by
      rw [applyPart, if_neg (by decide), if_pos rfl]
    have hroom' : parts.dropLast.length < maxParts := by
      rw [List.length_dropLast]
      omega
    rw [List.replicate_succ, List.cons_append, collectParts, if_pos hroom, hup, ih hroom', List.length_dropLast,
      List.dropLast_eq_take, List.take_take]
    congr 2
    omega

/-- The components of the relative path between two normal forms. -/
def relativeParts (fromParts toParts : List (List UInt8)) : List (List UInt8) :=
  List.replicate (fromParts.length - commonParts fromParts toParts) dotDot ++
    toParts.drop (commonParts fromParts toParts)

lemma relativeParts_separated (fromParts : List (List UInt8)) {toParts : List (List UInt8)}
    (hto : Separated toParts) : Separated (relativeParts fromParts toParts) := by
  intro part hpart
  rcases List.mem_append.1 hpart with hup | hdown
  · rw [(List.mem_replicate.1 hup).2]
    decide
  · exact hto part (List.mem_of_mem_drop hdown)

/-- The relative path leads from the first components to the second. -/
lemma collectParts_relative {fromParts toParts : List (List UInt8)} (absolute : Bool)
    (hfrom : Collected fromParts) (hto : Collected toParts) (hroom : fromParts.length < maxParts) :
    collectParts fromParts (shown false (relativeParts (shown absolute fromParts) (shown absolute toParts))) =
      toParts := by
  have hstay (parts : List (List UInt8)) : collectParts parts [dot] = parts := by
    rw [collectParts, collectParts, applyPart, if_pos (Or.inl rfl), ite_self]
  by_cases hfromEmpty : absolute = false ∧ fromParts = []
  · obtain ⟨rfl, rfl⟩ := hfromEmpty
    cases toParts with
    | nil => rfl
    | cons toPart toParts =>
      -- the way up from the current directory is ignored
      have hne := (hto.names toPart List.mem_cons_self).1
      have hparts : relativeParts [dot] (toPart :: toParts) = dotDot :: toPart :: toParts := by
        rw [relativeParts, commonParts_of_ne _ _ (Ne.symm hne)]
        rfl
      have hfull : collectParts [] (toPart :: toParts) = toPart :: toParts := by
        rw [collectParts_names hto.separated hto.names (by simpa using hto.room), List.nil_append]
      rw [show shown false [] = [dot] from rfl,
        show shown false (toPart :: toParts) = toPart :: toParts from if_neg (by simp), hparts, shown, if_neg (by simp)]
      exact (collectParts_up 1 (toPart :: toParts) (by decide : ([] : List (List UInt8)).length < maxParts)).trans hfull
  · rw [show shown absolute fromParts = fromParts from if_neg hfromEmpty]
    by_cases htoEmpty : absolute = false ∧ toParts = []
    · obtain ⟨rfl, rfl⟩ := htoEmpty
      cases fromParts with
      | nil => exact absurd ⟨rfl, rfl⟩ hfromEmpty
      | cons fromPart fromParts =>
        have hne := (hfrom.names fromPart List.mem_cons_self).1
        rw [show shown false [] = [dot] from rfl, relativeParts, commonParts_of_ne _ _ hne, Nat.sub_zero,
          List.drop_zero, shown, if_neg (by simp), collectParts_up _ _ hroom, Nat.sub_self, List.take_zero, hstay]
    · rw [show shown absolute toParts = toParts from if_neg htoEmpty]
      obtain ⟨hfromLe, htoLe, htake⟩ := commonParts_le fromParts toParts
      by_cases hsame : relativeParts fromParts toParts = []
      · -- nothing is left of either path
        obtain ⟨hup, hdown⟩ := List.append_eq_nil_iff.1 hsame
        have hfromLength : fromParts.length - commonParts fromParts toParts = 0 := by simpa using hup
        have htoLength := List.drop_eq_nil_iff.1 hdown
        rw [hsame, shown, if_pos ⟨rfl, rfl⟩, hstay]
        rwa [List.take_of_length_le (by omega), List.take_of_length_le (by omega)] at htake
      · rw [shown, if_neg (by simp [hsame]), relativeParts, collectParts_up _ _ hroom,
          show fromParts.length - (fromParts.length - commonParts fromParts toParts) = commonParts fromParts toParts by
            omega, htake]
        rw [collectParts_names, List.take_append_drop]
        · exact fun part hpart => hto.separated part (List.mem_of_mem_drop hpart)
        · exact fun part hpart => hto.names part (List.mem_of_mem_drop hpart)
        · have hlength := hto.room
          rw [List.length_take, List.length_drop]
          omega

/-- A relative path behind the path that it starts at; the empty path is the current directory. -/
def appendPath (fromPath relative : List UInt8) : List UInt8 :=
  if fromPath = [] then relative else fromPath ++ vmPathSeparator :: relative

/-- The stack is never full. -/
def FewComponents (path : List UInt8) : Prop :=
  ∀ before after, strtok path = before ++ after → (before.foldl enter []).length < maxParts

lemma Collected.shown_length {parts : List (List UInt8)} (h : Collected parts) (absolute : Bool) :
    (shown absolute parts).take maxParts = shown absolute parts := by
  apply List.take_of_length_le
  unfold shown
  split_ifs
  · decide
  · exact h.room

lemma length_foldl_enter (location toks : List (List UInt8)) :
    (toks.foldl enter location).length ≤ location.length + toks.length := by
  induction toks generalizing location with
  | nil => exact Nat.le_refl _
  | cons tok toks ih =>
    have hrest := ih (enter location tok)
    have hstep : (enter location tok).length ≤ location.length + 1 := by
      unfold enter
      split_ifs
      · rw [List.length_dropLast]
        omega
      · omega
      · simp
    rw [List.foldl_cons, List.length_cons]
    omega

/-- A path with fewer components than the stack has room for never fills it. -/
lemma fewComponents {path : List UInt8} (hlength : (strtok path).length < maxParts) : FewComponents path := by
  intro before after hsplit
  have hbefore := length_foldl_enter [] before
  rw [hsplit, List.length_append] at hlength
  rw [List.length_nil] at hbefore
  omega

/-- Behind a full stack nothing is read. -/
lemma components_full {names : List (List UInt8)} (rest : List (List UInt8)) (hseparated : Separated (names ++ rest))
    (hnames : Names names) (hfull : names.length = maxParts) : components (render false (names ++ rest)) = names := by
  have hnonempty : names ++ rest ≠ [] := by
    intro hempty
    rw [(List.append_eq_nil_iff.1 hempty).1] at hfull
    exact absurd hfull (by decide)
  have hbefore : Separated names := fun part hpart => hseparated part (List.mem_append_left _ hpart)
  have hread := @collectParts_append [] names rest hbefore (by
    intro before next after hsplit
    have hbefore := length_foldl_enter [] before
    rw [hsplit, List.length_append, List.length_cons] at hfull
    rw [List.length_nil] at hbefore
    omega)
  rw [components, strtok_render hseparated, shown, if_neg (by simp [hnonempty]), hread, foldl_enter_names [] hnames,
    List.nil_append]
  cases rest with
  | nil => rfl
  | cons next rest => rw [collectParts, if_neg (by omega)]

/-- What the relative path is, where it fits. -/
lemma vmPathRelativeCstr_some {fromPath toPath relative : List UInt8} {resultLen : ℕ}
    (hfrom : fromPath.length < bufLen) (hto : toPath.length < bufLen)
    (hsame : vmPathIsAbsoluteNative fromPath = vmPathIsAbsoluteNative toPath)
    (hrelative : vmPathRelativeCstr fromPath toPath resultLen = some relative) :
    relative = render false (relativeParts (shown (vmPathIsAbsoluteNative fromPath) (components fromPath))
      (shown (vmPathIsAbsoluteNative fromPath) (components toPath))) := by
  have hfromCollected := components_collected fromPath
  have htoCollected := components_collected toPath
  have hcopy {path : List UInt8} (hpath : path.length < bufLen) : vmPathCopyCstr bufLen
      (render (vmPathIsAbsoluteNative path) (components path)) =
        some (render (vmPathIsAbsoluteNative path) (components path)) := by
    have hlength := length_normal path
    have hbuf : bufLen = 4096 := rfl
    rw [vmPathCopyCstr, if_neg (by decide), if_neg (by omega)]
  unfold vmPathRelativeCstr at hrelative
  split_ifs at hrelative
  rw [vmPathNormalizeCstr_eq hfrom hfrom (by decide), vmPathNormalizeCstr_eq hto hto (by decide)] at hrelative
  simp only [Option.bind_eq_bind, Option.bind_some, hcopy hfrom, hcopy hto] at hrelative
  rw [isAbsolute_render hfromCollected.separated, isAbsolute_render htoCollected.separated,
    if_neg (not_not_intro hsame), vmPathSplitMut, vmPathSplitMut, strtok_render hfromCollected.separated,
    strtok_render htoCollected.separated, hfromCollected.shown_length, htoCollected.shown_length,
    ← hsame] at hrelative
  apply @relative_some resultLen relative _ (relativeParts_separated _ (htoCollected.separated.shown _))
  rw [relativeParts, writeRelative_append, Option.bind_assoc]
  exact hrelative

/-- The components of the two paths in a row. -/
lemma components_appendPath {fromPath : List UInt8} {parts : List (List UInt8)} (hparts : Separated parts)
    (hfew : FewComponents fromPath) :
    components (appendPath fromPath (render false parts)) = collectParts (components fromPath) (shown false parts) ∧
      vmPathIsAbsoluteNative (appendPath fromPath (render false parts)) = vmPathIsAbsoluteNative fromPath := by
  have hwhole : ReadWhole fromPath := fun before next after hsplit => hfew before (next :: after) hsplit
  unfold appendPath
  by_cases hempty : fromPath = []
  · subst hempty
    rw [if_pos rfl, isAbsolute_render hparts, components, strtok_render hparts]
    exact ⟨rfl, rfl⟩
  · rw [if_neg hempty]
    constructor
    · rw [components, strtok_append, strtok_render hparts, collectParts_append _ (strtok_separated fromPath) hwhole,
        components_eq hwhole]
    · obtain ⟨byte, rest, rfl⟩ := List.exists_cons_of_ne_nil hempty
      rfl

/-- Paths that fit the buffers. The normal form is one of its own, and leads to where the path leads when the steps
above the directory that it starts in are ignored. Behind the first path the relative path leads to the second. -/
theorem paths_normal :
    (∀ path resultLen, path.length < bufLen → path.length < resultLen → 2 ≤ resultLen →
      ∃ normal, vmPathNormalizeCstr path resultLen = some normal ∧
        vmPathNormalizeCstr normal resultLen = some normal ∧
        (ReadWhole path → ∀ start, locate start normal = locateInside start path ∧
          (vmPathIsAbsoluteNative path ∨ StaysInside path → locate start normal = locate start path))) ∧
    ∀ fromPath toPath relative resultLen, fromPath.length < bufLen → toPath.length < bufLen →
      vmPathIsAbsoluteNative fromPath = vmPathIsAbsoluteNative toPath → FewComponents fromPath →
      vmPathRelativeCstr fromPath toPath resultLen = some relative →
      (appendPath fromPath relative).length < bufLen →
      vmPathNormalizeCstr (appendPath fromPath relative) bufLen = vmPathNormalizeCstr toPath bufLen := by
  constructor
  · intro path resultLen hpath hresult htwo
    have hcollected := components_collected path
    have hlength := length_normal path
    have hbuf : bufLen = 4096 := rfl
    have hnormal := vmPathNormalizeCstr_eq hpath hresult htwo
    refine ⟨_, hnormal, ?_, ?_⟩
    · rw [vmPathNormalizeCstr_eq (by omega) (by omega) htwo, isAbsolute_render hcollected.separated,
        components_render _ hcollected]
    · intro hwhole start
      have hlocate : locate start (render (vmPathIsAbsoluteNative path) (components path)) =
          locateInside start path := by
        unfold locate locateInside
        rw [isAbsolute_render hcollected.separated, strtok_render hcollected.separated,
          foldl_enter_shown _ _ hcollected.names, ← components_eq hwhole]
      exact ⟨hlocate, fun hinside => hlocate.trans (locate_eq_locateInside start hinside).symm⟩
  · intro fromPath toPath relative resultLen hfrom hto hsame hfew hrelative happend
    have hfromCollected := components_collected fromPath
    have htoCollected := components_collected toPath
    have hwhole : ReadWhole fromPath := fun before next after hsplit => hfew before (next :: after) hsplit
    have hroom : (components fromPath).length < maxParts := by
      rw [components_eq hwhole]
      exact hfew (strtok fromPath) [] (List.append_nil _).symm
    have hseparated := relativeParts_separated (shown (vmPathIsAbsoluteNative fromPath) (components fromPath))
      (htoCollected.separated.shown (vmPathIsAbsoluteNative fromPath))
    rw [vmPathRelativeCstr_some hfrom hto hsame hrelative] at happend ⊢
    obtain ⟨hcomponents, habsolute⟩ := components_appendPath hseparated hfew
    rw [vmPathNormalizeCstr_eq happend happend (by decide), vmPathNormalizeCstr_eq hto hto (by decide), hcomponents,
      habsolute, collectParts_relative _ hfromCollected htoCollected hroom, hsame]

/-- A relative path goes to the directory next to the one that it starts in. -/
theorem paths_normal_example :
    (∃ normal, vmPathNormalizeCstr [97, 47, 46, 46, 47, 98] 4096 = some normal ∧
      vmPathNormalizeCstr normal 4096 = some normal) ∧
    vmPathNormalizeCstr (appendPath [47, 97] [46, 46, 47, 98]) bufLen = vmPathNormalizeCstr [47, 98] bufLen := by
  constructor
  · obtain ⟨normal, hnormal, hidempotent, -⟩ :=
      paths_normal.1 [97, 47, 46, 46, 47, 98] 4096 (by decide) (by decide) (by decide)
    exact ⟨normal, hnormal, hidempotent⟩
  · apply paths_normal.2 [47, 97] [47, 98] [46, 46, 47, 98] 4096 (by decide) (by decide) (by decide) ?_ (by decide)
      (by decide)
    exact fewComponents (by decide)

/-- A step above the directory that the path starts in is dropped, and so is a step up behind a full stack. -/
theorem normal_form_elsewhere :
    (vmPathNormalizeCstr [46, 46, 47, 120] 4096 = some [120] ∧
      locate [[97]] [46, 46, 47, 120] = [[120]] ∧ locate [[97]] [120] = [[97], [120]]) ∧
    vmPathNormalizeCstr (render false (List.replicate 256 [97] ++ [dotDot])) 4096 =
      some (render false (List.replicate 256 [97])) := by
  constructor
  · decide
  · have hnames : Names (List.replicate 256 [97]) := by
      intro part hpart
      rw [(List.mem_replicate.1 hpart).2]
      decide
    have hseparated : Separated (List.replicate 256 [97] ++ [dotDot]) := by
      intro part hpart
      rcases List.mem_append.1 hpart with hname | hup
      · rw [(List.mem_replicate.1 hname).2]
        decide
      · rw [List.mem_singleton.1 hup]
        decide
    have hlength : (render false (List.replicate 256 [97] ++ [dotDot])).length = 514 := by
      have hsize := length_render
        (List.append_ne_nil_of_right_ne_nil (List.replicate 256 [97]) (List.cons_ne_nil dotDot []))
      have hup : size [dotDot] = 3 := rfl
      rw [size_append, size_replicate, hup, List.length_singleton] at hsize
      omega
    rw [vmPathNormalizeCstr_eq (by rw [hlength]; decide) (by rw [hlength]; decide) (by decide),
      isAbsolute_render hseparated, components_full _ hseparated hnames (List.length_replicate)]

end Vm.Paths
