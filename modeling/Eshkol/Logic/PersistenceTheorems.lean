import Eshkol.Logic.Persistence

/-!
# What a saved knowledge base loads as

Reading goes through a file in step with writing, so every fact has an image under the round trip: the
fact itself, another fact, or no knowledge base at all. The round trip is the identity exactly when the
images are the facts.
-/

namespace Logic

open ByteCodec Hash

/-! ## Words and bytes -/

@[simp] lemma readBytes_append (l file : List UInt8) : readBytes l.length (l ++ file) = some (l, file) := by
  rw [readBytes, if_neg (by simp), List.take_left, List.drop_left]

lemma readU32_writeU32 {n : ℕ} (h : n < 1 <<< 32) (file : List UInt8) :
    readU32 (writeU32 n ++ file) = some (n, file) := by
  have hread : readBytes 4 (toLE 4 n ++ file) = some (toLE 4 n, file) := by
    simpa using readBytes_append (toLE 4 n) file
  rw [readU32, writeU32, hread, Option.map_some, ofLE_toLE_of_lt (by simpa using h)]

lemma readU64_writeU64 (bits : BitVec 64) (file : List UInt8) :
    readU64 (writeU64 bits ++ file) = some (bits, file) := by
  have hread : readBytes 8 (toLE 8 bits.toNat ++ file) = some (toLE 8 bits.toNat, file) := by
    simpa using readBytes_append (toLE 8 bits.toNat) file
  rw [readU64, writeU64, hread, Option.map_some, ofLE_toLE_of_lt (by have := bits.isLt; omega),
    BitVec.ofNat_toNat, BitVec.setWidth_eq]

lemma cString_eq_self {bytes : List UInt8} : cString bytes = bytes ↔ (0 : UInt8) ∉ bytes := by
  rw [cString, List.takeWhile_eq_self_iff]
  constructor
  · intro h hmem
    simpa using h 0 hmem
  · intro h b hb
    have hne : b ≠ 0 := fun heq => h (heq ▸ hb)
    simpa using hne

/-! ## Arguments -/

/-- What a text that was written is read as. -/
def reloadText (object : List UInt8 → HeapObject) (flags : UInt8) (bytes : List UInt8) : Option Arg :=
  if (cString bytes).length > maxContent then none else some (.heap flags (some (object (cString bytes))))

/-- What an argument that was written is read as. -/
def Arg.reload : Arg → Option Arg
  | .heap flags (some (.string bytes)) => reloadText .string flags bytes
  | .heap flags (some (.symbol bytes)) => reloadText .symbol flags bytes
  | arg => some arg

lemma ofCode_code (type : ImmediateType) : ImmediateType.ofCode type.code = some type := by
  cases type <;> rfl

lemma readHeap_text {bytes text : List UInt8} (h : writeText bytes = some text) {subtype : UInt8}
    (hsubtype : subtype ≠ 0xFF) {object : HeapObject}
    (hobject : readObject subtype (cString bytes) = some object) (file : List UInt8) :
    readHeap (subtype :: text ++ file) =
      if (cString bytes).length > maxContent then none else some (some object, file) := by
  rw [writeText] at h
  split at h
  · cases h
  · next hlen =>
    cases h
    have hlt : (cString bytes).length < 1 <<< 32 := by
      simp only [Nat.reduceShiftLeft]
      omega
    simp only [readHeap, List.cons_append, readU8, Option.bind_some, List.append_assoc, readU32_writeU32 hlt,
      if_neg hsubtype, readBytes_append, hobject, Option.map_some]

lemma readArg_heap (flags : UInt8) (file : List UInt8) :
    readArg (valueHeapPtr :: flags :: file) =
      (readHeap file).map fun r => (.heap flags r.1, r.2) := by
  simp only [readArg, readU8, Option.bind_some]
  rfl

lemma readArg_text {bytes text : List UInt8} (h : writeText bytes = some text) (flags : UInt8)
    {subtype : UInt8} (hsubtype : subtype ≠ 0xFF) {object : List UInt8 → HeapObject}
    (hobject : ∀ content, readObject subtype content = some (object content)) (file : List UInt8) :
    readArg (valueHeapPtr :: flags :: subtype :: text ++ file) =
      (reloadText object flags bytes).map (·, file) := by
  have hread := readHeap_text h hsubtype (hobject (cString bytes)) file
  rw [List.cons_append, List.cons_append, readArg_heap, hread, reloadText]
  split <;> rfl

/-- An argument is read as its image. -/
lemma readArg_writeArg {arg : Arg} {bytes : List UInt8} (h : writeArg arg = some bytes)
    (file : List UInt8) : readArg (bytes ++ file) = arg.reload.map (·, file) := by
  cases arg with
  | immediate type flags bits =>
    cases h
    simp only [List.cons_append, readArg, readU8, Option.bind_some, ofCode_code, readU64_writeU64,
      Option.map_some, Arg.reload]
  | other => cases h
  | heap flags object =>
    cases object with
    | none =>
      cases h
      have hzero : (0 : ℕ) < 1 <<< 32 := by decide
      simp only [List.cons_append, readArg_heap, readHeap, readU8, Option.bind_some, readU32_writeU32 hzero,
        if_true, Option.map_some, Arg.reload]
    | some object =>
      obtain ⟨content, hcontent, rfl⟩ := Option.map_eq_some_iff.1 h
      cases object with
      | string s =>
        obtain ⟨text, htext, rfl⟩ := Option.map_eq_some_iff.1 hcontent
        exact readArg_text htext flags (by decide) (fun _ => rfl) file
      | symbol s =>
        obtain ⟨text, htext, rfl⟩ := Option.map_eq_some_iff.1 hcontent
        exact readArg_text htext flags (by decide) (fun _ => rfl) file
      | bignum n => cases hcontent
      | other subtype => cases hcontent

lemma readArgs_writeArgs {args : List Arg} {bytes : List UInt8} (h : writeArgs args = some bytes)
    (file : List UInt8) :
    readArgs args.length (bytes ++ file) = (args.mapM Arg.reload).map (·, file) := by
  induction args generalizing bytes with
  | nil =>
    cases h
    rfl
  | cons arg args ih =>
    obtain ⟨front, hfront, h⟩ := Option.bind_eq_some_iff.1 h
    obtain ⟨rest, hrest, rfl⟩ := Option.map_eq_some_iff.1 h
    rw [List.length_cons, readArgs, List.append_assoc, readArg_writeArg hfront, List.mapM_cons]
    cases arg.reload with
    | none => rfl
    | some arg' =>
      simp only [Option.map_some, Option.bind_some, ih hrest]
      cases args.mapM Arg.reload <;> rfl

/-- Of a kind that the file format names: an immediate, a string, a symbol or a bignum. -/
def Arg.Documented : Arg → Prop
  | .heap _ (some (.other _ _)) | .other _ _ _ _ => False
  | _ => True

/-- The argument comes back: a text is not cut at a zero, and no longer than the reader accepts. A
bignum is never written. -/
def Arg.Kept : Arg → Prop
  | .heap _ (some (.string bytes)) | .heap _ (some (.symbol bytes)) =>
    (0 : UInt8) ∉ bytes ∧ bytes.length ≤ maxContent
  | .heap _ (some (.bignum _)) => False
  | _ => True

lemma writeText_of_kept {bytes : List UInt8} (h : (0 : UInt8) ∉ bytes ∧ bytes.length ≤ maxContent) :
    writeText bytes = some (writeU32 bytes.length ++ bytes) := by
  have hlen := h.2
  rw [maxContent] at hlen
  rw [writeText, cString_eq_self.2 h.1, if_neg (by omega)]

lemma Arg.Kept.writeArg_isSome {arg : Arg} (h : arg.Kept) (hdoc : arg.Documented) :
    (writeArg arg).isSome = true := by
  cases arg with
  | immediate => rfl
  | other => cases hdoc
  | heap flags object =>
    cases object with
    | none => rfl
    | some object =>
      cases object with
      | string bytes | symbol bytes => rw [writeArg, writeObject, writeText_of_kept h]; rfl
      | bignum => cases h
      | other => cases hdoc

lemma documented_of_writeArg {arg : Arg} {bytes : List UInt8} (h : writeArg arg = some bytes) :
    arg.Documented := by
  cases arg with
  | immediate => trivial
  | other => cases h
  | heap flags object =>
    cases object with
    | none => trivial
    | some object =>
      cases object with
      | other => cases h
      | _ => trivial

lemma reloadText_eq_iff {object : List UInt8 → HeapObject} (hinj : Function.Injective object)
    {flags : UInt8} {bytes : List UInt8} :
    reloadText object flags bytes = some (.heap flags (some (object bytes))) ↔
      (0 : UInt8) ∉ bytes ∧ bytes.length ≤ maxContent := by
  rw [reloadText, ← cString_eq_self]
  split
  · next hlong =>
    constructor
    · intro h
      cases h
    · rintro ⟨heq, hlen⟩
      rw [heq] at hlong
      omega
  · next hshort =>
    simp only [Option.some.injEq, Arg.heap.injEq, true_and, hinj.eq_iff]
    constructor
    · intro heq
      rw [heq] at hshort
      exact ⟨heq, by omega⟩
    · exact fun h => h.1

/-- A written argument is its own image exactly when it is kept. -/
lemma reload_eq_iff {arg : Arg} {bytes : List UInt8} (h : writeArg arg = some bytes) :
    arg.reload = some arg ↔ arg.Kept := by
  cases arg with
  | immediate => exact iff_of_true rfl trivial
  | other => cases h
  | heap flags object =>
    cases object with
    | none => exact iff_of_true rfl trivial
    | some object =>
      cases object with
      | string s => exact reloadText_eq_iff fun _ _ => HeapObject.string.inj
      | symbol s => exact reloadText_eq_iff fun _ _ => HeapObject.symbol.inj
      | bignum => cases h
      | other => cases h

lemma reloads_eq_iff {args : List Arg} {bytes : List UInt8} (h : writeArgs args = some bytes) :
    args.mapM Arg.reload = some args ↔ ∀ arg ∈ args, arg.Kept := by
  induction args generalizing bytes with
  | nil => simp
  | cons arg args ih =>
    obtain ⟨front, hfront, h⟩ := Option.bind_eq_some_iff.1 h
    obtain ⟨rest, hrest, rfl⟩ := Option.map_eq_some_iff.1 h
    rw [List.forall_mem_cons, ← reload_eq_iff hfront, ← ih hrest, List.mapM_cons]
    cases arg.reload <;> cases args.mapM Arg.reload <;> simp

/-! ## Facts -/

/-- The fact as it should be loaded. -/
def SavedFact.restored (fact : SavedFact) : LoadedFact :=
  ⟨fact.predicate.elim .unset fun name => .text name.1, fact.args⟩

lemma SavedFact.zero_notMem_predName (fact : SavedFact) : (0 : UInt8) ∉ fact.predName := by
  rw [SavedFact.predName]
  cases fact.predicate with
  | none => simp
  | some name => exact name.2

/-- A name is loaded as a text if it can be interned. -/
lemma loadPredicate_eq_text_iff {table : PredTable} {name name' : Name} :
    (loadPredicate table name).1 = .text name' ↔ name = name' ∧ Interns (fun _ => name) table 0 := by
  rw [loadPredicate, internPredicate, Interns]
  cases hfind : table.names.findIdx? (· == name) with
  | some i =>
    obtain ⟨hi, heq, -⟩ := List.findIdx?_eq_some_iff_getElem.1 hfind
    have hname : table.names[i] = name := beq_iff_eq.1 heq
    have hget : table.names.getD i [] = name := by
      rw [List.getD_eq_getElem?_getD, List.getElem?_eq_getElem hi, hname]
      rfl
    simp only [hget, LoadedPredicate.text.injEq]
    exact ⟨fun h => ⟨h, .inl (hname ▸ List.getElem_mem hi)⟩, fun h => h.1⟩
  | none =>
    have hnew : name ∉ table.names := fun hmem => by
      simpa using List.findIdx?_eq_none_iff.1 hfind _ hmem
    simp only [hnew, false_or]
    by_cases hroom : predTableSize ≤ table.names.length
    · rw [if_pos hroom]
      simp [Nat.not_lt.2 hroom]
    · rw [if_neg hroom]
      by_cases hpool : predPoolSize < table.poolOffset + (name.length + 1)
      · rw [if_pos hpool]
        simp [Nat.not_le.2 hpool]
      · rw [if_neg hpool]
        simp [Nat.not_le.1 hroom, Nat.not_lt.1 hpool]

lemma loadPredicate_ne_unset (table : PredTable) (name : Name) : (loadPredicate table name).1 ≠ .unset := by
  rw [loadPredicate]
  split <;> simp

/-- The image of a fact under the round trip: the length of the name is cut to 32 bits. -/
def SavedFact.savedName (fact : SavedFact) : Name := fact.predName.take (fact.predName.length % 1 <<< 32)

lemma length_savedName (fact : SavedFact) :
    fact.savedName.length = fact.predName.length % 1 <<< 32 := by
  rw [SavedFact.savedName, List.length_take]
  exact Nat.min_eq_left (Nat.mod_le _ _)

/-- Reading takes a written fact off the file. -/
lemma readFacts_writeFact {fact : SavedFact} {bytes : List UInt8} (h : writeFact fact = some bytes)
    (n : ℕ) (table : PredTable) (kb : List LoadedFact) (file : List UInt8) :
    readFacts (n + 1) table kb (bytes ++ file) =
      if fact.savedName.length > 255 ∨ fact.args.length > 4096 then none
      else (fact.args.mapM Arg.reload).bind fun args =>
        readFacts n (loadPredicate table fact.savedName).2
          (kb ++ [⟨(loadPredicate table fact.savedName).1, args⟩]) file := by
  obtain ⟨args, hargs, rfl⟩ := Option.map_eq_some_iff.1 h
  have hlt : fact.savedName.length < 1 <<< 32 := by
    rw [length_savedName]
    exact Nat.mod_lt _ (by decide)
  have hzero : (0 : UInt8) ∉ fact.savedName := fun hmem =>
    fact.zero_notMem_predName (List.mem_of_mem_take hmem)
  rw [← length_savedName, readFacts]
  simp only [List.append_assoc, readU32_writeU32 hlt]
  split
  · next hlong => rw [if_pos (.inl hlong)]
  · next hshort =>
    have hname : readBytes fact.savedName.length
        (fact.predName.take fact.savedName.length ++ (writeU32 fact.args.length ++ (args ++ file))) =
        some (fact.savedName, writeU32 fact.args.length ++ (args ++ file)) := by
      rw [length_savedName, ← SavedFact.savedName, ← length_savedName]
      exact readBytes_append _ _
    simp only [hname, readU32_writeU32 fact.arity_lt]
    by_cases harity : fact.args.length > 4096
    · rw [if_pos harity, if_pos (.inr harity)]
    · rw [if_neg harity, if_neg (not_or.2 ⟨hshort, harity⟩), readArgs_writeArgs hargs,
        cString_eq_self.2 hzero]
      cases fact.args.mapM Arg.reload <;> rfl

/-- The facts that were read stay. -/
lemma readFacts_prefix {n : ℕ} {table table' : PredTable} {kb facts : List LoadedFact}
    {file : List UInt8} (h : readFacts n table kb file = some (facts, table')) : kb <+: facts := by
  induction n generalizing table kb file with
  | zero =>
    cases h
    exact List.prefix_rfl
  | succ n ih =>
    rw [readFacts] at h
    split at h
    · cases h
      exact List.prefix_rfl
    · split at h
      · cases h
      · split at h
        · cases h
          exact List.prefix_rfl
        · split at h
          · cases h
            exact List.prefix_rfl
          · split at h
            · cases h
            · simp only at h
              split at h
              · cases h
              · exact (List.prefix_append _ _).trans (ih h)

/-- What the reader and the table of predicates have room for. -/
structure SavedFact.Kept (table : PredTable) (fact : SavedFact) : Prop where
  predicate_set : fact.predicate ≠ none
  predName_le : fact.predName.length ≤ 255
  interns : Interns (fun _ => fact.predName) table 0
  arity_le : fact.args.length ≤ 4096
  args : ∀ arg ∈ fact.args, arg.Kept

/-- Every fact is kept, with the predicates of those before it interned. -/
def FactsKept : PredTable → List SavedFact → Prop
  | _, [] => True
  | table, fact :: facts =>
    fact.Kept table ∧ FactsKept (loadPredicate table fact.predName).2 facts

/-- The predicate of a fact comes back. -/
lemma loadPredicate_savedName_iff {table : PredTable} {fact : SavedFact} (h : fact.savedName.length ≤ 255) :
    (loadPredicate table fact.savedName).1 = fact.restored.predicate ↔
      fact.predicate ≠ none ∧ fact.predName.length ≤ 255 ∧ Interns (fun _ => fact.predName) table 0 := by
  rw [SavedFact.restored]
  cases hpred : fact.predicate with
  | none => simpa using loadPredicate_ne_unset table fact.savedName
  | some name =>
    have hname : fact.predName = name.1 := by rw [SavedFact.predName, hpred]; rfl
    simp only [Option.elim_some, loadPredicate_eq_text_iff, ne_eq, reduceCtorEq, not_false_eq_true, true_and]
    constructor
    · rintro ⟨heq, hinterns⟩
      rw [heq, ← hname] at hinterns
      rw [heq] at h
      exact ⟨hname ▸ h, hinterns⟩
    · rintro ⟨hlen, hinterns⟩
      have hsaved : fact.savedName = fact.predName := by
        rw [SavedFact.savedName, Nat.mod_eq_of_lt (hlen.trans_lt (by decide)), List.take_length]
      rw [hsaved]
      exact ⟨hname, hinterns⟩

lemma savedName_of_le {fact : SavedFact} (h : fact.predName.length ≤ 255) :
    fact.savedName = fact.predName := by
  rw [SavedFact.savedName, Nat.mod_eq_of_lt (h.trans_lt (by decide)), List.take_length]

/-- Written facts are read as they were exactly when all of them are kept. -/
lemma readFacts_writeFacts_iff {facts : List SavedFact} {bytes : List UInt8}
    (h : writeFacts facts = some bytes) (table : PredTable) (kb : List LoadedFact) :
    (∃ table', readFacts facts.length table kb bytes = some (kb ++ facts.map SavedFact.restored, table')) ↔
      FactsKept table facts := by
  induction facts generalizing bytes table kb with
  | nil => simp [readFacts, FactsKept]
  | cons fact facts ih =>
    obtain ⟨front, hfront, h⟩ := Option.bind_eq_some_iff.1 h
    obtain ⟨rest, hrest, rfl⟩ := Option.map_eq_some_iff.1 h
    obtain ⟨args, hargs, -⟩ := Option.map_eq_some_iff.1 hfront
    rw [List.length_cons, readFacts_writeFact hfront, FactsKept]
    split
    · next hcap =>
      refine iff_of_false (by simp) fun hkept => ?_
      have hname := hkept.1.predName_le
      rw [savedName_of_le hname] at hcap
      have := hkept.1.arity_le
      omega
    · next hcap =>
      obtain ⟨hlen, harity⟩ := not_or.1 hcap
      constructor
      · rintro ⟨table', hread⟩
        obtain ⟨args', hargs', hread⟩ := Option.bind_eq_some_iff.1 hread
        -- the image of the fact is the next one of the result
        have hfact : (⟨(loadPredicate table fact.savedName).1, args'⟩ : LoadedFact) = fact.restored := by
          obtain ⟨more, hmore⟩ := readFacts_prefix hread
          rw [List.append_assoc, List.map_cons] at hmore
          exact (List.cons.inj (List.append_cancel_left hmore)).1
        obtain ⟨hpred, rfl⟩ := LoadedFact.mk.inj hfact
        obtain ⟨hset, hle, hinterns⟩ := (loadPredicate_savedName_iff (not_lt.1 hlen)).1 hpred
        rw [hfact, savedName_of_le hle] at hread
        refine ⟨⟨hset, hle, hinterns, not_lt.1 harity, (reloads_eq_iff hargs).1 hargs'⟩,
          (ih hrest _ (kb ++ [fact.restored])).1 ⟨table', ?_⟩⟩
        rw [hread, List.append_assoc]
        rfl
      · rintro ⟨hkept, hfacts⟩
        have hpred := (loadPredicate_savedName_iff (not_lt.1 hlen)).2
          ⟨hkept.predicate_set, hkept.predName_le, hkept.interns⟩
        obtain ⟨table', hread⟩ := (ih hrest _ (kb ++ [fact.restored])).2 hfacts
        refine ⟨table', ?_⟩
        rw [(reloads_eq_iff hargs).2 hkept.args, Option.bind_some, hpred, savedName_of_le hkept.predName_le]
        rw [List.append_assoc] at hread
        exact hread

/-! ## The round trip -/

/-- The loop of the reader gets the facts of a saved file. -/
lemma kbLoad_kbSave {kb : SavedKb} {facts : List UInt8} (h : writeFacts kb.facts = some facts)
    (table : PredTable) :
    ∃ file, kbSave kb = some file ∧ kbLoad table file = readFacts kb.facts.length table [] facts := by
  have hmagic : eskbMagic < 1 <<< 32 := by decide
  have hversion : eskbVersion < 1 <<< 32 := by decide
  have hreserved : (0 : ℕ) < 1 <<< 32 := by decide
  refine ⟨_, by rw [kbSave, h, Option.map_some], ?_⟩
  simp only [kbLoad, List.append_assoc, readU32_writeU32 hmagic, readU32_writeU32 hversion,
    readU32_writeU32 kb.numFacts_lt, readU32_writeU32 hreserved, Option.bind_some, ne_eq, not_true_eq_false,
    if_false]

/-- A file that was saved loads as the same facts in the same order, whatever predicates are interned
already, and arguments of the documented kinds can be saved. -/
def RoundTrips (table : PredTable) (kb : SavedKb) : Prop :=
  (∀ file, kbSave kb = some file →
      ∃ table', kbLoad table file = some (kb.facts.map SavedFact.restored, table')) ∧
    ((∀ fact ∈ kb.facts, ∀ arg ∈ fact.args, arg.Documented) → (kbSave kb).isSome = true)

lemma documented_of_writeArgs {args : List Arg} {bytes : List UInt8} (h : writeArgs args = some bytes) :
    ∀ arg ∈ args, arg.Documented := by
  induction args generalizing bytes with
  | nil => simp
  | cons arg args ih =>
    obtain ⟨front, hfront, h⟩ := Option.bind_eq_some_iff.1 h
    obtain ⟨rest, hrest, rfl⟩ := Option.map_eq_some_iff.1 h
    exact List.forall_mem_cons.2 ⟨documented_of_writeArg hfront, ih hrest⟩

/-- Only documented arguments are written. -/
lemma documented_of_writeFacts {facts : List SavedFact} {bytes : List UInt8}
    (h : writeFacts facts = some bytes) : ∀ fact ∈ facts, ∀ arg ∈ fact.args, arg.Documented := by
  induction facts generalizing bytes with
  | nil => simp
  | cons fact facts ih =>
    obtain ⟨front, hfront, h⟩ := Option.bind_eq_some_iff.1 h
    obtain ⟨rest, hrest, rfl⟩ := Option.map_eq_some_iff.1 h
    obtain ⟨args, hargs, -⟩ := Option.map_eq_some_iff.1 hfront
    exact List.forall_mem_cons.2 ⟨documented_of_writeArgs hargs, ih hrest⟩

lemma writeArgs_isSome {args : List Arg} (hkept : ∀ arg ∈ args, arg.Kept)
    (hdoc : ∀ arg ∈ args, arg.Documented) : (writeArgs args).isSome = true := by
  induction args with
  | nil => rfl
  | cons arg args ih =>
    obtain ⟨hkept, hkepts⟩ := List.forall_mem_cons.1 hkept
    obtain ⟨hdoc, hdocs⟩ := List.forall_mem_cons.1 hdoc
    obtain ⟨front, hfront⟩ := Option.isSome_iff_exists.1 (hkept.writeArg_isSome hdoc)
    rw [writeArgs, hfront, Option.bind_some, Option.isSome_map]
    exact ih hkepts hdocs

lemma FactsKept.writeFacts_isSome {table : PredTable} {facts : List SavedFact}
    (hkept : FactsKept table facts) (hdoc : ∀ fact ∈ facts, ∀ arg ∈ fact.args, arg.Documented) :
    (writeFacts facts).isSome = true := by
  induction facts generalizing table with
  | nil => rfl
  | cons fact facts ih =>
    obtain ⟨hdoc, hdocs⟩ := List.forall_mem_cons.1 hdoc
    obtain ⟨args, hargs⟩ := Option.isSome_iff_exists.1 (writeArgs_isSome hkept.1.args hdoc)
    rw [writeFacts, writeFact, hargs, Option.map_some, Option.bind_some, Option.isSome_map]
    exact ih hkept.2 hdocs

/-- The round trip is the identity exactly on the knowledge bases of documented arguments whose facts
are all kept; with any other argument nothing is saved. -/
theorem roundTrips_iff (table : PredTable) (kb : SavedKb) :
    RoundTrips table kb ↔
      ((∀ fact ∈ kb.facts, ∀ arg ∈ fact.args, arg.Documented) → FactsKept table kb.facts) := by
  constructor
  · rintro ⟨hload, hsave⟩ hdoc
    obtain ⟨facts, hfacts, -⟩ := Option.map_eq_some_iff.1 (Option.isSome_iff_exists.1 (hsave hdoc)).choose_spec
    obtain ⟨file, hfile, hread⟩ := kbLoad_kbSave hfacts table
    have hloaded := hload file hfile
    rw [hread] at hloaded
    exact (readFacts_writeFacts_iff hfacts table []).1 hloaded
  · intro hkept
    refine ⟨fun file hfile => ?_, fun hdoc => ?_⟩
    · obtain ⟨facts, hfacts, -⟩ := Option.map_eq_some_iff.1 hfile
      obtain ⟨file', hfile', hread⟩ := kbLoad_kbSave hfacts table
      cases hfile.symm.trans hfile'
      rw [hread]
      exact (readFacts_writeFacts_iff hfacts table []).2 (hkept (documented_of_writeFacts hfacts))
    · rw [kbSave, Option.isSome_map]
      exact (hkept hdoc).writeFacts_isSome hdoc

/-- The bignum `2^64` is a documented argument that cannot be saved. -/
theorem bignum_not_saved :
    ¬ ∀ (table : PredTable) (kb : SavedKb), RoundTrips table kb := by
  intro h
  let fact : SavedFact := ⟨some ⟨[0x70], by decide⟩, [.heap 0 (some (.bignum ⟨false, [0, 1]⟩))], by decide⟩
  have hdoc : ∀ f ∈ [fact], ∀ arg ∈ f.args, arg.Documented := by
    intro f hf arg harg
    cases List.mem_singleton.1 hf
    cases List.mem_singleton.1 harg
    trivial
  have hsave : kbSave ⟨[fact], by decide⟩ = none := rfl
  have hsome := (h ⟨[], 0⟩ ⟨[fact], by decide⟩).2 hdoc
  rw [hsave] at hsome
  cases hsome

end Logic
