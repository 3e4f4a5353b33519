import Clou.Com
import Clou.Communication
import Clou.Execution
import Mathlib.Data.Prod.Lex

/-! Communication is well defined: a read has one source, and reading before a write is
the same as reading from a write before it. -/

namespace Clou.Com

open Z3 Communication

variable {aeg : Aeg} {v : ComValuation}

def Plain (aeg : Aeg) (ref : NodeRef) : Prop := ref < aeg.size ∧ aeg.isSpecial ref = false

variable {ref : NodeRef}

theorem variant_of_kind (known : kind aeg ref ≠ .other) : ref < aeg.size := by
  by_contra outside
  have absent : aeg.po.variant ref = none := by
    simpa [Cfg.variant, Aeg.size, Cfg.size] using outside
  exact known (by simp [kind, absent])

theorem create_ne (I : Inst) : create I ≠ .entry ∧ create I ≠ .exit := by
  unfold create
  split_ifs <;> simp

theorem kind_entry_iff_variant (ref : NodeRef) :
    kind aeg ref = .entry ↔ aeg.po.variant ref = some .entry := by
  unfold kind
  split <;> simp_all [create_ne]

theorem kind_exit_iff_variant (ref : NodeRef) :
    kind aeg ref = .exit ↔ aeg.po.variant ref = some .exit := by
  unfold kind
  split <;> simp_all [create_ne]

theorem isSpecial_iff (ref : NodeRef) :
    aeg.isSpecial ref = true ↔ kind aeg ref = .entry ∨ kind aeg ref = .exit := by
  rw [kind_entry_iff_variant, kind_exit_iff_variant]
  unfold Aeg.isSpecial
  split <;> simp_all

theorem plain_of_kind (known : kind aeg ref ≠ .other) (entry : kind aeg ref ≠ .entry)
    (exit : kind aeg ref ≠ .exit) : Plain aeg ref := by
  refine ⟨variant_of_kind known, ?_⟩
  rw [Bool.eq_false_iff, Ne, isSpecial_iff]
  simp [entry, exit]

theorem kind_entry_iff (ordered : aeg.Ordered) (ref : NodeRef) :
    kind aeg ref = .entry ↔ ref = aeg.entry := by
  rw [← ordered.entry_iff ref, kind_entry_iff_variant]

theorem Plain.ne_entry (ordered : aeg.Ordered) (plain : Plain aeg ref) : ref ≠ aeg.entry := by
  intro same
  have special := (isSpecial_iff ref).mpr (.inl ((kind_entry_iff ordered ref).mpr same))
  rw [plain.2] at special
  cases special

theorem entry_isSpecial (ordered : aeg.Ordered) : aeg.isSpecial aeg.entry = true :=
  (isSpecial_iff aeg.entry).mpr (.inl ((kind_entry_iff ordered aeg.entry).mpr rfl))

theorem arch_entry : (arch aeg aeg.entry).eval v = true := by
  simp [arch, Aeg.arch]

theorem exec_entry : (exec aeg aeg.entry).eval v = true := by
  simp [exec, Aeg.exec, Aeg.arch]

theorem not_no_of_eval {option : Opt} {value : ComValuation → Bool}
    (holds : (makeAccess option value).eval v = true) : option ≠ .no := by
  rintro rfl
  simp [makeAccess] at holds

theorem isFalse_makeAccess (option : Opt) (value : ComValuation → Bool) :
    (makeAccess option value).isFalse = decide (option = .no) := by
  cases option <;> rfl

/-- The entry is the only special node that writes, to memory or to the state. -/
theorem writer_cases (ordered : aeg.Ordered) (option : Kind → Opt) (exit : option .exit = .no)
    (other : option .other = .no) (may : option (kind aeg ref) ≠ .no) :
    ref = aeg.entry ∨ Plain aeg ref := by
  by_cases entry : kind aeg ref = .entry
  · exact .inl ((kind_entry_iff ordered ref).mp entry)
  · refine .inr (plain_of_kind ?_ entry ?_)
    · intro unknown
      exact may (unknown ▸ other)
    · intro last
      exact may (last ▸ exit)

section Architectural

def archSystem (aeg : Aeg) (v : ComValuation) : System NodeRef Nat where
  rank := id
  write w := (arch aeg w).eval v = true ∧ (write aeg w).eval v = true
  read r := (arch aeg r).eval v = true ∧ (read aeg r).eval v = true
  same a b := (sameAddr aeg a b).eval v = true

variable {b a ref dst src w r : NodeRef}

theorem sameAddr_plain (plainA : Plain aeg a) (plainB : Plain aeg b) :
    (sameAddr aeg a b).eval v = true ↔ v.address a = v.address b := by
  simp [sameAddr, plainA.2, plainB.2, memoryAddress]

theorem sameAddr_symm (same : (sameAddr aeg a b).eval v = true) :
    (sameAddr aeg b a).eval v = true := by
  unfold sameAddr at same ⊢
  rw [Bool.or_comm]
  split at same <;> simp_all

def performs (aeg : Aeg) : Access → NodeRef → BoolExpr ComValuation
  | .read => read aeg
  | .write => write aeg

theorem mayAccess_of_eval (access : Access) (holds : (performs aeg access ref).eval v = true) :
    mayAccess aeg access ref = true := by
  cases access with
  | read => exact decide_eq_true (not_no_of_eval holds)
  | write => exact decide_eq_true (not_no_of_eval holds)

theorem performs_lt (access : Access) (holds : (performs aeg access ref).eval v = true) :
    ref < aeg.size := by
  apply variant_of_kind
  intro unknown
  cases access with
  | read => exact not_no_of_eval holds (by rw [unknown]; rfl)
  | write => exact not_no_of_eval holds (by rw [unknown]; rfl)

theorem write_cases (ordered : aeg.Ordered) (holds : (write aeg ref).eval v = true) :
    ref = aeg.entry ∨ Plain aeg ref :=
  writer_cases ordered Kind.mayWrite rfl rfl (not_no_of_eval holds)

theorem archSystem_lawful (ordered : aeg.Ordered) (v : ComValuation) :
    (archSystem aeg v).Lawful aeg.entry (Plain aeg) where
  finite := (Set.finite_lt_nat aeg.size).subset (fun _ writes => performs_lt .write writes.2)
  injective _ _ same := same
  init_write := by
    refine ⟨arch_entry, ?_⟩
    simp [write, (kind_entry_iff ordered aeg.entry).mpr rfl, Kind.mayWrite, makeAccess]
  init_before plain := Nat.pos_of_ne_zero (plain.ne_entry ordered)
  init_same a := by simp [archSystem, sameAddr, entry_isSpecial ordered]
  write_cases writes := write_cases ordered writes.2
  symm := sameAddr_symm
  trans plainA plainB plainC left right := by
    simp only [archSystem, sameAddr_plain, plainA, plainB, plainC] at left right ⊢
    exact left.trans right

theorem accessOrderLess_iff (validA : a < aeg.size) (validB : b < aeg.size) :
    accessOrderLess aeg a b = true ↔ a < b := by
  have index {n : Nat} (valid : n < aeg.size) : aeg.po.reversePostorder.idxOf n = n := by
    have bound : n < (List.range aeg.po.size).length := by simpa [Aeg.size] using valid
    simpa [Cfg.reversePostorder] using List.nodup_range.idxOf_getElem n bound
  simp [accessOrderLess, index validA, index validB]

def WritesTo (aeg : Aeg) (v : ComValuation) (dst : NodeRef) (cell : Int) (ref : NodeRef) : Prop :=
  ref < dst ∧ aeg.isSpecial ref = false ∧ (arch aeg ref).eval v = true ∧
    (write aeg ref).eval v = true ∧ v.address ref = cell

theorem isMemory_of_write (plain : Plain aeg ref) (holds : (write aeg ref).eval v = true) :
    (kind aeg ref).isMemory = true := by
  have may : (kind aeg ref).mayWrite ≠ .no := not_no_of_eval holds
  have regular : ¬ (kind aeg ref = .entry ∨ kind aeg ref = .exit) := by
    rw [← isSpecial_iff, plain.2]
    simp
  revert may regular
  cases kind aeg ref <;> simp [Kind.mayWrite, Kind.isMemory]

theorem isSpecial_of_isMemory (memory : (kind aeg ref).isMemory = true) :
    aeg.isSpecial ref = false := by
  rw [Bool.eq_false_iff, Ne, isSpecial_iff]
  rintro (entry | exit)
  · simp [entry, Kind.isMemory] at memory
  · simp [exit, Kind.isMemory] at memory

theorem reversePostorder_split (valid : dst < aeg.size) :
    aeg.po.reversePostorder =
      List.range dst ++ dst :: (List.range (aeg.size - (dst + 1))).map (dst + 1 + ·) := by
  have parts := List.range_add (n := dst + 1) (m := aeg.size - (dst + 1))
  rw [Nat.add_sub_cancel' (Nat.succ_le_of_lt valid), List.range_succ, List.append_assoc] at parts
  exact parts

theorem ne_of_mem_range : ∀ ref ∈ List.range dst, (ref != dst) = true := by
  intro ref member
  simpa using (List.mem_range.mp member).ne

theorem takeWhile_reversePostorder (valid : dst < aeg.size) :
    aeg.po.reversePostorder.takeWhile (· != dst) = List.range dst := by
  rw [reversePostorder_split valid, List.takeWhile_append_of_pos ne_of_mem_range]
  simp

theorem dropWhile_reversePostorder (valid : dst < aeg.size) :
    aeg.po.reversePostorder.dropWhile (· != dst) =
      dst :: (List.range (aeg.size - (dst + 1))).map (dst + 1 + ·) := by
  rw [reversePostorder_split valid, List.dropWhile_append_of_pos ne_of_mem_range]
  simp

/-- The store of a node before `dst` takes place at a cell exactly when it writes there. -/
theorem stores_iff {cell : Int} (valid : dst < aeg.size) :
    ref ∈ (List.range dst).filter (fun ref => mayWrite aeg ref && (kind aeg ref).isMemory) ∧
        ((and (arch aeg ref) (write aeg ref)).eval v = true ∧ memoryAddress ref v = cell) ↔
      WritesTo aeg v dst cell ref := by
  simp only [List.mem_filter, List.mem_range, eval_and, Bool.and_eq_true, WritesTo, memoryAddress]
  constructor
  · rintro ⟨⟨before, may, memory⟩, ⟨runs, writes⟩, here⟩
    exact ⟨before, isSpecial_of_isMemory memory, runs, writes, here⟩
  · rintro ⟨before, regular, runs, writes, here⟩
    have plain : Plain aeg ref := ⟨before.trans valid, regular⟩
    exact ⟨⟨before, mayAccess_of_eval .write writes, isMemory_of_write plain writes⟩, ⟨runs, writes⟩, here⟩

def LastWrite (aeg : Aeg) (v : ComValuation) (dst : NodeRef) (cell : Int) (src : NodeRef) : Prop :=
  (WritesTo aeg v dst cell src ∧ ∀ ref, WritesTo aeg v dst cell ref → ref ≤ src) ∨
    (src = aeg.entry ∧ ∀ ref, ¬ WritesTo aeg v dst cell ref)

theorem writtenBy_iff (valid : dst < aeg.size) (cell : Int) :
    writtenBy aeg src dst v cell = true ↔ LastWrite aeg v dst cell src := by
  have sorted : ((List.range dst).filter
      (fun ref => mayWrite aeg ref && (kind aeg ref).isMemory)).Pairwise (· < ·) :=
    List.pairwise_lt_range.filter _
  rw [writtenBy, takeWhile_reversePostorder valid]
  rcases storeAll_cases memoryAddress (fun ref _ => src == ref)
    (fun ref => and (arch aeg ref) (write aeg ref)) (constArray (fun _ => src == aeg.entry)) sorted
    v cell with ⟨last, member, stores, greatest, result⟩ | ⟨none, result⟩
  · have writes : WritesTo aeg v dst cell last := (stores_iff valid).mp ⟨member, stores⟩
    rw [result, beq_iff_eq]
    constructor
    · rintro rfl
      refine .inl ⟨writes, ?_⟩
      intro ref other
      obtain ⟨present, also⟩ := (stores_iff valid).mpr other
      exact greatest ref present also
    · rintro (⟨source, last'⟩ | ⟨-, absent⟩)
      · obtain ⟨present, also⟩ := (stores_iff valid).mpr source
        exact le_antisymm (greatest src present also) (last' last writes)
      · exact absurd writes (absent last)
  · have absent (ref : NodeRef) : ¬ WritesTo aeg v dst cell ref := by
      intro writes
      obtain ⟨present, also⟩ := (stores_iff valid).mpr writes
      exact none ref present also
    simp [result, constArray, LastWrite, absent]

theorem mem_edgeRel {edge : EdgeKind} :
    (src, dst) ∈ edgeRel aeg edge v ↔
      (src < aeg.size ∧ (existsSrc aeg edge src).eval v = true) ∧
        (dst < aeg.size ∧ (existsDst aeg edge dst).eval v = true) ∧
        (edgeExists aeg edge src dst).eval v = true := by
  simp only [edgeRel, Aeg.nodeRange, List.mem_flatMap, List.mem_filter, List.mem_range,
    List.mem_map, Prod.mk.injEq]
  constructor
  · rintro ⟨_, present, _, ⟨target, holds⟩, rfl, rfl⟩
    exact ⟨present, target, holds⟩
  · rintro ⟨present, target, holds⟩
    exact ⟨src, present, dst, ⟨target, holds⟩, rfl, rfl⟩

theorem comExistsPrecond_iff {srcKind dstKind : Access}
    (performsSrc : (performs aeg srcKind src).eval v = true)
    (performsDst : (performs aeg dstKind dst).eval v = true) :
    (comExistsPrecond aeg src dst srcKind dstKind).eval v = true ↔
      src < dst ∧ (arch aeg src).eval v = true ∧ (arch aeg dst).eval v = true ∧
        (sameAddr aeg src dst).eval v = true := by
  have less := accessOrderLess_iff (performs_lt srcKind performsSrc) (performs_lt dstKind performsDst)
  unfold comExistsPrecond
  by_cases before : src < dst
  · simp [mayAccess_of_eval srcKind performsSrc, mayAccess_of_eval dstKind performsDst, less.mpr before, before,
      and_assoc]
  · have refused : accessOrderLess aeg src dst = false := by
      rw [Bool.eq_false_iff, Ne, less]
      exact before
    simp [refused, before]

/-- Two architectural accesses communicate in program order when they meet at an address. -/
theorem com_iff (srcKind dstKind : Access) :
    ((src < aeg.size ∧ (and (arch aeg src) (performs aeg srcKind src)).eval v = true) ∧
        (dst < aeg.size ∧ (and (arch aeg dst) (performs aeg dstKind dst)).eval v = true) ∧
        (comExistsPrecond aeg src dst srcKind dstKind).eval v = true) ↔
      ((arch aeg src).eval v = true ∧ (performs aeg srcKind src).eval v = true) ∧
        ((arch aeg dst).eval v = true ∧ (performs aeg dstKind dst).eval v = true) ∧
        (sameAddr aeg src dst).eval v = true ∧ src < dst := by
  simp only [eval_and, Bool.and_eq_true]
  constructor
  · rintro ⟨⟨-, runs, performed⟩, ⟨-, runs', performed'⟩, holds⟩
    have parts := (comExistsPrecond_iff performed performed').mp holds
    exact ⟨⟨runs, performed⟩, ⟨runs', performed'⟩, parts.2.2.2, parts.1⟩
  · rintro ⟨⟨runs, performed⟩, ⟨runs', performed'⟩, same, before⟩
    exact ⟨⟨performs_lt srcKind performed, runs, performed⟩, ⟨performs_lt dstKind performed', runs', performed'⟩,
      (comExistsPrecond_iff performed performed').mpr ⟨before, runs, runs', same⟩⟩

theorem co_iff {w' : NodeRef} : (w, w') ∈ edgeRel aeg .co v ↔ (archSystem aeg v).Coherence w w' :=
  mem_edgeRel.trans (com_iff .write .write)

theorem fr_iff : (r, w) ∈ edgeRel aeg .fr v ↔ (archSystem aeg v).FromRead r w :=
  mem_edgeRel.trans (com_iff .read .write)

/-- Where a plain access reads, whatever precedes it and meets it writes there too. -/
theorem writesTo_iff (ordered : aeg.Ordered) {u : NodeRef} (plain : Plain aeg r)
    (later : u ≠ aeg.entry) :
    WritesTo aeg v r (v.address r) u ↔
      (archSystem aeg v).write u ∧ (archSystem aeg v).same u r ∧ u < r := by
  constructor
  · rintro ⟨before, regular, runs, writes, here⟩
    have plainU : Plain aeg u := ⟨before.trans plain.1, regular⟩
    exact ⟨⟨runs, writes⟩, (sameAddr_plain plainU plain).mpr here, before⟩
  · rintro ⟨⟨runs, writes⟩, same, before⟩
    have plainU : Plain aeg u := (write_cases ordered writes).resolve_left later
    exact ⟨before, plainU.2, runs, writes, (sameAddr_plain plainU plain).mp same⟩

/-- The source of a read is the last write to its address before it. -/
theorem readsFrom_iff (ordered : aeg.Ordered) (plain : Plain aeg r) :
    (archSystem aeg v).ReadsFrom w r ↔
      (archSystem aeg v).read r ∧ LastWrite aeg v r (v.address r) w := by
  have lawful := archSystem_lawful ordered v
  have positive : aeg.entry < r := lawful.init_before plain
  constructor
  · rintro ⟨write, read, same, before, none⟩
    refine ⟨read, ?_⟩
    have bounded (u : NodeRef) (writes : WritesTo aeg v r (v.address r) u) : u ≤ w := by
      by_contra after
      have later : w < u := Nat.lt_of_not_le after
      have parts := (writesTo_iff ordered plain (Nat.ne_of_gt (Nat.zero_lt_of_lt later))).mp writes
      exact none ⟨u, parts.1, lawful.same_of_common parts.1 write plain parts.2.1 same, parts.2.1,
        later, parts.2.2⟩
    by_cases first : w = aeg.entry
    · refine .inr ⟨first, ?_⟩
      intro u writes
      have zero : u = aeg.entry := Nat.le_zero.mp ((bounded u writes).trans first.le)
      have special := entry_isSpecial ordered
      rw [← zero, writes.2.1] at special
      cases special
    · exact .inl ⟨(writesTo_iff ordered plain first).mpr ⟨write, same, before⟩, bounded⟩
  · rintro ⟨read, last⟩
    rcases last with ⟨writes, greatest⟩ | ⟨rfl, absent⟩
    · have first : w ≠ aeg.entry := by
        rintro rfl
        have special := entry_isSpecial ordered
        rw [writes.2.1] at special
        cases special
      have parts := (writesTo_iff ordered plain first).mp writes
      refine ⟨parts.1, read, parts.2.1, parts.2.2, ?_⟩
      rintro ⟨u, write, -, same, after, before⟩
      have other := (writesTo_iff ordered plain (Nat.ne_of_gt (Nat.zero_lt_of_lt after))).mpr
        ⟨write, same, before⟩
      exact absurd (greatest u other) (Nat.not_le.mpr after)
    · refine ⟨lawful.init_write, read, lawful.init_same r, positive, ?_⟩
      rintro ⟨u, write, -, same, after, before⟩
      exact absent u ((writesTo_iff ordered plain (Nat.ne_of_gt (Nat.zero_lt_of_lt after))).mpr
        ⟨write, same, before⟩)

theorem rfExists_iff (plain : Plain aeg r) :
    (rfExists aeg w r).eval v = true ↔
      (comExistsPrecond aeg w r .write .read).eval v = true ∧
        writtenBy aeg w r v (if w = aeg.entry then v.address r else v.address w) = true := by
  have literal : (comExistsPrecond aeg w r .write .read).isFalse = true →
      (comExistsPrecond aeg w r .write .read).eval v = false := by
    unfold comExistsPrecond
    split
    · simp
    · split <;> simp [Z3.and]
  have cell : select (writtenBy aeg w r)
      (if w = aeg.entry then memoryAddress r else memoryAddress w) v =
      writtenBy aeg w r v (if w = aeg.entry then v.address r else v.address w) := by
    split <;> rfl
  simp only [rfExists, plain.2, Bool.and_false, Bool.false_eq_true, if_false]
  split
  · rename_i trivial
    simp [literal trivial]
  · rw [eval_and, eval_ofTerm, cell, Bool.and_eq_true]

theorem rf_iff (ordered : aeg.Ordered) (plain : Plain aeg r) :
    (w, r) ∈ edgeRel aeg .rf v ↔ (archSystem aeg v).ReadsFrom w r := by
  -- both ends are looked up at the address of the read, by the precondition
  have cell (write : (write aeg w).eval v = true) (same : (sameAddr aeg w r).eval v = true) :
      (if w = aeg.entry then v.address r else v.address w) = v.address r := by
    rcases write_cases ordered write with first | plainW
    · rw [if_pos first]
    · rw [if_neg (plainW.ne_entry ordered), (sameAddr_plain plainW plain).mp same]
  rw [mem_edgeRel, edgeExists, rfExists_iff plain]
  constructor
  · rintro ⟨source, target, holds, written⟩
    obtain ⟨write, read, same, before⟩ := (com_iff .write .read).mp ⟨source, target, holds⟩
    rw [cell write.2 same, writtenBy_iff plain.1] at written
    exact (readsFrom_iff ordered plain).mpr ⟨read, written⟩
  · intro readsFrom
    obtain ⟨read, last⟩ := (readsFrom_iff ordered plain).mp readsFrom
    obtain ⟨write, -, same, before, -⟩ := readsFrom
    obtain ⟨source, target, holds⟩ := (com_iff .write .read).mpr ⟨write, read, same, before⟩
    refine ⟨source, target, holds, ?_⟩
    rw [cell write.2 same, writtenBy_iff plain.1]
    exact last

end Architectural

/-- Architectural communication is well defined: every read has one source, the last write
to its address or the entry, and from-reads are the reads of earlier writes. -/
theorem architectural_communication (aeg : Aeg) (ordered : aeg.Ordered) (v : ComValuation) :
    (∀ r < aeg.size, aeg.isSpecial r = false → (arch aeg r).eval v = true →
      (read aeg r).eval v = true →
        (∃! w, (w, r) ∈ edgeRel aeg .rf v) ∧
          ∀ w, (w, r) ∈ edgeRel aeg .rf v ↔ LastWrite aeg v r (v.address r) w) ∧
    (∀ r < aeg.size, aeg.isSpecial r = false → ∀ w' < aeg.size,
      ((r, w') ∈ edgeRel aeg .fr v ↔
        r ≠ w' ∧ (sameAddr aeg r w').eval v = true ∧
          ∃ w, (w, r) ∈ edgeRel aeg .rf v ∧ (w, w') ∈ edgeRel aeg .co v)) := by
  have lawful := archSystem_lawful ordered v
  constructor
  · intro r valid regular runs reads
    have plain : Plain aeg r := ⟨valid, regular⟩
    simp only [rf_iff ordered plain]
    constructor
    · obtain ⟨w, source⟩ := lawful.readsFrom_exists plain ⟨runs, reads⟩
      exact ⟨w, source, fun w' source' => lawful.readsFrom_unique plain source' source⟩
    · intro w
      rw [readsFrom_iff ordered plain]
      exact ⟨fun source => source.2, fun last => ⟨⟨runs, reads⟩, last⟩⟩
  · intro r valid regular w' _
    have plain : Plain aeg r := ⟨valid, regular⟩
    simp only [rf_iff ordered plain, co_iff, fr_iff]
    exact lawful.fromRead_iff plain

def storeCallLoad : Aeg where
  po :=
    { nodes := [Cfg.Node.makeEntry, ⟨.inst ⟨0, 0, 0⟩, none, ∅⟩,
        ⟨.call ⟨0, 0, 1⟩ (.argument 0 0), none, ∅⟩, ⟨.inst ⟨0, 0, 2⟩, none, ∅⟩, Cfg.Node.makeExit]
      po := (((Binrel.empty.insert 0 1).insert 1 2).insert 2 3).insert 3 4
      entry := 0
      exits := [4]
      translations := ∅ }
  deref := fun I =>
    ⟨if I.index = 0 then .store false else .load, [], [], [], false, false, I.index == 2⟩
  leakageClass := .spectreV4
  specDepth := 2
  lsqSize := none

theorem storeCallLoad_ordered : storeCallLoad.Ordered := by
  refine Aeg.ordered_of_listed ?_ (by decide) (by decide)
  constructor <;> intro src dst edge <;>
    simp only [storeCallLoad, Binrel.edge_insert, Binrel.not_edge_empty, false_or] at edge <;>
    rcases edge with (((⟨rfl, rfl⟩ | ⟨rfl, rfl⟩) | ⟨rfl, rfl⟩) | ⟨rfl, rfl⟩) <;> decide

/-- The call writes where the load reads, and nowhere near what the store wrote. -/
def callWrites : ComValuation where
  arch := fun _ => true
  trans := fun _ => false
  read := fun _ => false
  write := fun _ => true
  tfo := fun _ _ => false
  address := fun ref => if ref = 1 then 0 else 1
  xsread := fun _ => true
  xswrite := fun _ => true
  xstate := fun _ => 0
  xsaccessOrder := fun ref => ref

theorem callWrites_source : ∃! w, (w, 3) ∈ edgeRel storeCallLoad .rf callWrites :=
  ((architectural_communication storeCallLoad storeCallLoad_ordered callWrites).1 3 (by decide)
    (by decide) (by decide) (by decide)).1

section Microarchitectural

/-- The place of a node in the access order: ties are broken by number, the entry comes
first and the exits come last. -/
def xsRank (aeg : Aeg) (v : ComValuation) (ref : NodeRef) : ℕ ×ₗ ℤ ×ₗ ℕ :=
  if ref = aeg.entry then toLex (0, toLex (0, ref))
  else if ref ∈ aeg.exits then toLex (2, toLex (0, ref))
  else toLex (1, toLex (v.xsaccessOrder ref, ref))

variable {b a w : NodeRef} {option : Opt} {value : ComValuation → Bool}

theorem xsRank_injective (same : xsRank aeg v a = xsRank aeg v b) : a = b := by
  have number (ref : NodeRef) : (ofLex (ofLex (xsRank aeg v ref)).2).2 = ref := by
    unfold xsRank
    split_ifs <;> rfl
  rw [← number a, ← number b, same]

theorem entry_not_exit (ordered : aeg.Ordered) : aeg.entry ∉ aeg.exits := by
  intro exit
  have variant : aeg.po.variant aeg.entry = some .exit := by
    simpa [Aeg.exits, Aeg.isExit] using (List.mem_filter.mp exit).2
  rw [(ordered.entry_iff aeg.entry).mpr rfl] at variant
  cases variant

theorem xsaccessOrderLess_iff (ordered : aeg.Ordered) (a b : NodeRef) :
    (xsaccessOrderLess aeg a b).eval v = true ↔ xsRank aeg v a < xsRank aeg v b := by
  have apart := entry_not_exit ordered
  unfold xsaccessOrderLess xsRank
  by_cases same : a = b
  · simp [same]
  · rw [if_neg same]
    by_cases entryA : a = aeg.entry
    · have entryB : b ≠ aeg.entry := fun entryB => same (entryA.trans entryB.symm)
      by_cases exitB : b ∈ aeg.exits <;>
        simp [entryA, entryB, exitB, apart, Prod.Lex.toLex_lt_toLex]
    · by_cases entryB : b = aeg.entry
      · by_cases exitA : a ∈ aeg.exits <;>
          simp [entryA, entryB, exitA, apart, Prod.Lex.toLex_lt_toLex]
      · by_cases exitA : a ∈ aeg.exits
        · by_cases exitB : b ∈ aeg.exits <;>
            simp [entryA, entryB, exitA, exitB, Prod.Lex.toLex_lt_toLex]
        · by_cases exitB : b ∈ aeg.exits
          · simp [entryA, entryB, exitA, exitB, Prod.Lex.toLex_lt_toLex]
          · by_cases before : a < b
            · simp [entryA, entryB, exitA, exitB, before, Prod.Lex.toLex_lt_toLex,
                xsaccessOrder, le_iff_lt_or_eq]
            · simp [entryA, entryB, exitA, exitB, before, Prod.Lex.toLex_lt_toLex, xsaccessOrder]

/-- Executed accesses to the microarchitectural state in the access order. -/
def xsSystem (aeg : Aeg) (v : ComValuation) : System NodeRef (ℕ ×ₗ ℤ ×ₗ ℕ) where
  rank := xsRank aeg v
  write w := (exec aeg w).eval v = true ∧ (xswrite aeg w).eval v = true
  read r := (exec aeg r).eval v = true ∧ (xsread aeg r).eval v = true
  same a b := (sameXstate aeg a b).eval v = true

theorem sameXstate_plain (plainA : Plain aeg a) (plainB : Plain aeg b) :
    (sameXstate aeg a b).eval v = true ↔ v.xstate a = v.xstate b := by
  simp [sameXstate, plainA.2, plainB.2, xsaccess, Z3.or, xstate]

theorem sameXstate_symm (same : (sameXstate aeg a b).eval v = true) :
    (sameXstate aeg b a).eval v = true := by
  unfold sameXstate at same ⊢
  rw [Bool.or_comm (aeg.isSpecial b), Bool.or_comm (xsaccess aeg b).isFalse]
  split at same
  · simp_all
  · split at same <;> simp_all

theorem xswriter_lt {ref : NodeRef} (holds : (xswrite aeg ref).eval v = true) :
    ref < aeg.size := by
  apply variant_of_kind
  intro unknown
  exact not_no_of_eval holds (by rw [unknown]; rfl)

theorem xsRank_entry_lt (ordered : aeg.Ordered) {ref : NodeRef} (other : ref ≠ aeg.entry) :
    xsRank aeg v aeg.entry < xsRank aeg v ref := by
  rw [← xsaccessOrderLess_iff ordered]
  by_cases exit : ref ∈ aeg.exits <;> simp [xsaccessOrderLess, other, Ne.symm other, exit]

theorem xsSystem_lawful (ordered : aeg.Ordered) (v : ComValuation) :
    (xsSystem aeg v).Lawful aeg.entry (Plain aeg) where
  finite := (Set.finite_lt_nat aeg.size).subset (fun _ writes => xswriter_lt writes.2)
  injective _ _ same := xsRank_injective same
  init_write := by
    refine ⟨exec_entry, ?_⟩
    simp [xswrite, (kind_entry_iff ordered aeg.entry).mpr rfl, Kind.mayXswrite, makeAccess]
  init_before plain := xsRank_entry_lt ordered (plain.ne_entry ordered)
  init_same a := by simp [xsSystem, sameXstate, entry_isSpecial ordered]
  write_cases writes := writer_cases ordered Kind.mayXswrite rfl rfl (not_no_of_eval writes.2)
  symm := sameXstate_symm
  trans plainA plainB plainC left right := by
    simp only [xsSystem, sameXstate_plain, plainA, plainB, plainC] at left right ⊢
    exact left.trans right

/-- A literal that is false as a term is false under every valuation. -/
theorem eval_of_isFalse (literal : (makeAccess option value).isFalse = true) :
    (makeAccess option value).eval v = false := by
  rw [isFalse_makeAccess, decide_eq_true_eq] at literal
  simp [literal, makeAccess]

variable {value' : ComValuation → Bool}

theorem comxExistsPrecond_iff {option' : Opt} (src dst : NodeRef) :
    (comxExistsPrecond aeg src dst (makeAccess option value) (makeAccess option' value')).eval v =
        true ↔
      ((exec aeg src).eval v = true ∧ (makeAccess option value).eval v = true) ∧
        ((exec aeg dst).eval v = true ∧ (makeAccess option' value').eval v = true) ∧
        (sameXstate aeg src dst).eval v = true := by
  unfold comxExistsPrecond
  split
  · rename_i trivial
    rcases Bool.or_eq_true_iff.mp trivial with literal | literal <;>
      simp [eval_of_isFalse literal]
  · simp only [eval_and, Bool.and_eq_true]
    tauto

/-- The test for a literal precondition does not change what an edge requires. -/
theorem eval_unless_false {option' : Opt} {src dst : NodeRef} {edge : BoolExpr ComValuation}
    (requires : edge.eval v = true → (comxExistsPrecond aeg src dst (makeAccess option value)
      (makeAccess option' value')).eval v = true) :
    (if (comxExistsPrecond aeg src dst (makeAccess option value) (makeAccess option' value')).isFalse
        then boolVal false else edge).eval v = true ↔ edge.eval v = true := by
  have literal : (comxExistsPrecond aeg src dst (makeAccess option value)
      (makeAccess option' value')).isFalse = true →
      (comxExistsPrecond aeg src dst (makeAccess option value) (makeAccess option' value')).eval v =
        false := by
    unfold comxExistsPrecond
    split <;> simp [Z3.and]
  split
  · rename_i trivial
    simp only [eval_boolVal, Bool.false_eq_true, false_iff]
    intro holds
    rw [requires holds] at literal
    cases literal trivial
  · rfl

theorem cox_iff (ordered : aeg.Ordered) {w' : NodeRef} :
    (coxExists aeg w w').eval v = true ↔ (xsSystem aeg v).Coherence w w' := by
  rw [coxExists, xswrite, xswrite, eval_unless_false (by simp +contextual), eval_and,
    Bool.and_eq_true, comxExistsPrecond_iff, xsaccessOrderLess_iff ordered]
  exact ⟨fun ⟨⟨source, target, same⟩, before⟩ => ⟨source, target, same, before⟩,
    fun ⟨source, target, same, before⟩ => ⟨⟨source, target, same⟩, before⟩⟩

theorem frx_iff (ordered : aeg.Ordered) {r : NodeRef} :
    (frxExists aeg r w).eval v = true ↔ (xsSystem aeg v).FromRead r w := by
  rw [frxExists, xsread, xswrite, eval_unless_false (by simp +contextual), eval_and,
    Bool.and_eq_true, comxExistsPrecond_iff, xsaccessOrderLess_iff ordered]
  exact ⟨fun ⟨⟨source, target, same⟩, before⟩ => ⟨source, target, same, before⟩,
    fun ⟨source, target, same, before⟩ => ⟨⟨source, target, same⟩, before⟩⟩

theorem eval_foldl_or {A : Type} (f : A → BoolExpr ComValuation) (keys : List A)
    (init : BoolExpr ComValuation) :
    (keys.foldl (fun acc key => or acc (f key)) init).eval v = true ↔
      init.eval v = true ∨ ∃ key ∈ keys, (f key).eval v = true := by
  induction keys generalizing init with
  | nil => simp
  | cons key keys ih =>
    rw [List.foldl_cons, ih]
    simp [or_assoc]

theorem intervening_iff (ordered : aeg.Ordered) {src dst : NodeRef} :
    (intervening aeg src dst).eval v = true ↔
      ∃ u, (xsSystem aeg v).write u ∧ (xsSystem aeg v).same u src ∧ (xsSystem aeg v).same u dst ∧
        (xsSystem aeg v).Before src u ∧ (xsSystem aeg v).Before u dst := by
  rw [intervening, eval_foldl_or]
  simp only [eval_boolVal, Bool.false_eq_true, false_or, intervenes, eval_and, Bool.and_eq_true,
    xsaccessOrderLess_iff ordered, List.mem_filter, Aeg.nodeRange, List.mem_range]
  constructor
  · rintro ⟨u, -, ⟨⟨⟨write, left⟩, right⟩, after⟩, before⟩
    exact ⟨u, write, left, right, after, before⟩
  · rintro ⟨u, write, left, right, after, before⟩
    have possible : (!(xswrite aeg u).isFalse) = true := by
      rw [xswrite, isFalse_makeAccess]
      simpa using not_no_of_eval write.2
    exact ⟨u, ⟨xswriter_lt write.2, possible⟩, ⟨⟨⟨write, left⟩, right⟩, after⟩, before⟩

theorem rfx_iff (ordered : aeg.Ordered) {r : NodeRef} (plain : Plain aeg r) :
    (rfxExists aeg w r).eval v = true ↔ (xsSystem aeg v).ReadsFrom w r := by
  have regular : ¬ (kind aeg w = .entry ∧ kind aeg r = .exit) := by
    rintro ⟨-, exit⟩
    have special := (isSpecial_iff r).mpr (.inr exit)
    rw [plain.2] at special
    cases special
  rw [rfxExists, if_neg regular, xswrite, xsread, eval_unless_false (by simp +contextual), eval_and,
    eval_and, Bool.and_eq_true, Bool.and_eq_true, comxExistsPrecond_iff,
    xsaccessOrderLess_iff ordered, eval_not, Bool.not_eq_true', Bool.eq_false_iff, Ne,
    intervening_iff ordered]
  exact ⟨fun ⟨⟨⟨write, read, same⟩, before⟩, gap⟩ => ⟨write, read, same, before, gap⟩,
    fun ⟨write, read, same, before, gap⟩ => ⟨⟨⟨write, read, same⟩, before⟩, gap⟩⟩

def InOrder (aeg : Aeg) (ref : NodeRef) : Prop :=
  ref = aeg.entry ∨ ref ∈ aeg.exits ∨ (ref < aeg.size ∧ hasXstate aeg ref = true)

/-- A strict total order on the nodes it is about, from the entry up to the exits. -/
structure AccessOrder (aeg : Aeg) (less : NodeRef → NodeRef → Prop) : Prop where
  irrefl : ∀ a, InOrder aeg a → ¬ less a a
  trans : ∀ a b c, InOrder aeg a → InOrder aeg b → InOrder aeg c → less a b → less b c → less a c
  total : ∀ a b, InOrder aeg a → InOrder aeg b → a ≠ b → less a b ∨ less b a
  entry_least : ∀ a, InOrder aeg a → a ≠ aeg.entry → less aeg.entry a
  exit_greatest : ∀ a e, InOrder aeg a → a ∉ aeg.exits → e ∈ aeg.exits → less a e

theorem accessOrder (ordered : aeg.Ordered) (v : ComValuation) :
    AccessOrder aeg (fun a b => (xsaccessOrderLess aeg a b).eval v = true) := by
  simp only [xsaccessOrderLess_iff ordered]
  constructor
  · intro a _
    exact lt_irrefl _
  · intro a b c _ _ _ left right
    exact left.trans right
  · intro a b _ _ distinct
    exact lt_or_gt_of_ne (fun same => distinct (xsRank_injective same))
  · intro a _ other
    exact xsRank_entry_lt ordered other
  · intro a e _ inner exit
    have last : e ≠ aeg.entry := fun entry => entry_not_exit ordered (entry ▸ exit)
    have apart : a ≠ e := fun same => inner (same ▸ exit)
    rw [← xsaccessOrderLess_iff ordered]
    by_cases entry : a = aeg.entry
    · simp [xsaccessOrderLess, entry, last, exit, Ne.symm last]
    · simp [xsaccessOrderLess, apart, entry, last, exit, inner]

end Microarchitectural

/-- Microarchitectural communication is well defined: the access order is a strict total
order, every executed read has one source, and from-reads are the reads of earlier writes. -/
theorem microarchitectural_communication (aeg : Aeg) (ordered : aeg.Ordered) (v : ComValuation) :
    AccessOrder aeg (fun a b => (xsaccessOrderLess aeg a b).eval v = true) ∧
    (∀ r < aeg.size, aeg.isSpecial r = false → (exec aeg r).eval v = true →
      (xsread aeg r).eval v = true →
        ∃! w, w < aeg.size ∧ (rfxExists aeg w r).eval v = true) ∧
    (∀ r < aeg.size, aeg.isSpecial r = false → ∀ w' < aeg.size,
      ((frxExists aeg r w').eval v = true ↔
        r ≠ w' ∧ (sameXstate aeg r w').eval v = true ∧
          ∃ w < aeg.size, (rfxExists aeg w r).eval v = true ∧
            (coxExists aeg w w').eval v = true)) := by
  have lawful := xsSystem_lawful ordered v
  refine ⟨accessOrder ordered v, ?_, ?_⟩
  · intro r valid regular runs reads
    have plain : Plain aeg r := ⟨valid, regular⟩
    simp only [rfx_iff ordered plain]
    obtain ⟨w, source⟩ := lawful.readsFrom_exists plain ⟨runs, reads⟩
    exact ⟨w, ⟨xswriter_lt source.1.2, source⟩,
      fun w' source' => lawful.readsFrom_unique plain source'.2 source⟩
  · intro r valid regular w' _
    have plain : Plain aeg r := ⟨valid, regular⟩
    simp only [rfx_iff ordered plain, cox_iff ordered, frx_iff ordered]
    rw [lawful.fromRead_iff plain]
    constructor
    · rintro ⟨distinct, same, w, source, later⟩
      exact ⟨distinct, same, w, xswriter_lt source.1.2, source, later⟩
    · rintro ⟨distinct, same, w, -, source, later⟩
      exact ⟨distinct, same, w, source, later⟩

theorem callWrites_xsource :
    ∃! w, w < storeCallLoad.size ∧ (rfxExists storeCallLoad w 3).eval callWrites = true :=
  (microarchitectural_communication storeCallLoad storeCallLoad_ordered callWrites).2.1 3
    (by decide) (by decide) (by decide) (by decide)

end Clou.Com
