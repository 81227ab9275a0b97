/-
# Scanning a device for partitions

`projects1-3/src/devices/partition.c`, lines 24-125: `read_partition_table`.

The sector that is read is always the first one, whichever table is meant.  So from the
device's own table on, an extended partition that lies within the device is scanned as
if its table were that one again, and the recursion ends only where every offset that
this leads to is past the end (`partitionScan_iff`).

What `found_partition` does with a partition, and the messages, are left out.  There is
memory for the tables.
-/

import CS162.Basis.Blocks
import CS162.Basis.ByteMemory
import CS162.Basis.Program
import CS162.Filesys.Sector

namespace CS162
namespace Devices

open CS162.Basis CS162.Filesys

/-! ### Partition tables -/

/-- The byte at an offset of a sector. -/
def byteAt (s : Sector) (i : ℕ) : UInt8 := s (Fin.ofNat 512 i)

/-- The 32-bit word at an offset of a sector. -/
def longAt (s : Sector) (i : ℕ) : UInt32 :=
  ofBytes (byteAt s i) (byteAt s (i + 1)) (byteAt s (i + 2)) (byteAt s (i + 3))

/-- `struct partition_table_entry`, as far as it is looked at. -/
structure PartitionTableEntry where
  type : UInt8
  offset : UInt32
  size : UInt32
deriving DecidableEq

/-- `pt->partitions`. -/
def partitions (pt : Sector) : List PartitionTableEntry :=
  (List.range 4).map fun i =>
    ⟨byteAt pt (446 + 16 * i + 4), longAt pt (446 + 16 * i + 8), longAt pt (446 + 16 * i + 12)⟩

/-- `pt->signature == 0xaa55`. -/
def Signed (pt : Sector) : Prop := byteAt pt 510 = 0x55 ∧ byteAt pt 511 = 0xaa

instance (pt : Sector) : Decidable (Signed pt) := inferInstanceAs (Decidable (_ ∧ _))

namespace PartitionTableEntry

/-- An empty partition. -/
def Empty (e : PartitionTableEntry) : Prop := e.size = 0 ∨ e.type = 0

/-- One of the types of an extended partition. -/
def Extended (e : PartitionTableEntry) : Prop :=
  e.type = 0x05 ∨ e.type = 0x0f ∨ e.type = 0x85 ∨ e.type = 0xc5

instance (e : PartitionTableEntry) : Decidable e.Empty := inferInstanceAs (Decidable (_ ∨ _))

instance (e : PartitionTableEntry) : Decidable e.Extended := inferInstanceAs (Decidable (_ ∨ _))

end PartitionTableEntry

/-! ### The scan -/

/-- A block device: how many sectors it has, and what is in them. -/
structure Block where
  size : BlockSector
  read : BlockSector → Sector

/-- What `found_partition` is told of a partition. -/
structure Part where
  type : UInt8
  start : BlockSector
  size : BlockSector
deriving DecidableEq

/-- What a scan has done: the tables that it has gone to, each with the sector that it has
read for it, and the partitions that it has found, with their numbers. -/
structure Scan where
  tables : List (BlockSector × BlockSector)
  found : List (Part × ℕ)
  partNr : ℕ

/-- `block_read`, for the table in `sector`. -/
def readTable (B : Block) (sector idx : BlockSector) : Prog Scan Sector := do
  modify fun S => { S with tables := S.tables ++ [(sector, idx)] }
  return B.read idx

/-- `found_partition`. -/
def foundPartition (p : Part) : Prog Scan Unit :=
  modify fun S =>
    { S with partNr := S.partNr + 1, found := S.found ++ [(p, S.partNr + 1)] }

/-- The loop of `read_partition_table` over the entries; `rec` is `read_partition_table`. -/
def parsePartitions (rec : BlockSector → BlockSector → Prog Scan Unit)
    (sector primaryExtendedSector : BlockSector) : List PartitionTableEntry → Prog Scan Unit
  | [] => return
  | e :: es =>
    if e.Empty then parsePartitions rec sector primaryExtendedSector es
    else if e.Extended then do
      if sector = 0 then rec e.offset e.offset
      else rec (e.offset + primaryExtendedSector) primaryExtendedSector
      parsePartitions rec sector primaryExtendedSector es
    else do
      foundPartition ⟨e.type, e.offset + sector, e.size⟩
      parsePartitions rec sector primaryExtendedSector es

/-- `read_partition_table`. -/
def readPartitionTable (B : Block) : ℕ → BlockSector → BlockSector → Prog Scan Unit
  | 0, _, _ => halt
  | turns + 1, sector, primaryExtendedSector =>
    if B.size ≤ sector then return
    else do
      let pt ← readTable B sector 0
      if Signed pt then
        parsePartitions (readPartitionTable B turns) sector primaryExtendedSector (partitions pt)
      else return

/-- Before the scan. -/
def Scan.start : Scan := ⟨[], [], 0⟩

/-! ### What the tables say -/

mutual

/-- The tables that are reached from the one in `sector`, each read from its own sector, and the
partitions in them that are not extended. -/
inductive Reaches (B : Block) : BlockSector → BlockSector → List BlockSector → List Part → Prop
  | table {sector primary : BlockSector} {ts : List BlockSector} {ps : List Part}
      (inside : sector < B.size) (signed : Signed (B.read sector))
      (entries : ReachesAll B sector primary (partitions (B.read sector)) ts ps) :
      Reaches B sector primary (sector :: ts) ps

/-- The tables and the partitions that are reached from entries of the table in `sector`. -/
inductive ReachesAll (B : Block) : BlockSector → BlockSector → List PartitionTableEntry →
    List BlockSector → List Part → Prop
  | nil {sector primary : BlockSector} : ReachesAll B sector primary [] [] []
  | empty {sector primary : BlockSector} {e : PartitionTableEntry} {es : List PartitionTableEntry}
      {ts : List BlockSector} {ps : List Part} (empty : e.Empty)
      (rest : ReachesAll B sector primary es ts ps) : ReachesAll B sector primary (e :: es) ts ps
  | primary {primary : BlockSector} {e : PartitionTableEntry} {es : List PartitionTableEntry}
      {ts ts' : List BlockSector} {ps ps' : List Part} (full : ¬e.Empty) (extended : e.Extended)
      (here : Reaches B e.offset e.offset ts ps) (rest : ReachesAll B 0 primary es ts' ps') :
      ReachesAll B 0 primary (e :: es) (ts ++ ts') (ps ++ ps')
  | logical {sector primary : BlockSector} {e : PartitionTableEntry} {es : List PartitionTableEntry}
      {ts ts' : List BlockSector} {ps ps' : List Part} (nested : sector ≠ 0) (full : ¬e.Empty)
      (extended : e.Extended) (here : Reaches B (e.offset + primary) primary ts ps)
      (rest : ReachesAll B sector primary es ts' ps') :
      ReachesAll B sector primary (e :: es) (ts ++ ts') (ps ++ ps')
  | partition {sector primary : BlockSector} {e : PartitionTableEntry}
      {es : List PartitionTableEntry} {ts : List BlockSector} {ps : List Part} (full : ¬e.Empty)
      (plain : ¬e.Extended) (rest : ReachesAll B sector primary es ts ps) :
      ReachesAll B sector primary (e :: es) ts (⟨e.type, e.offset + sector, e.size⟩ :: ps)

end

/-- The device's tables are a well-formed chain: every extended partition is within the device and
begins with a table, and none is reached twice. -/
def WellFormed (B : Block) (ts : List BlockSector) (ps : List Part) : Prop :=
  Reaches B 0 0 ts ps ∧ ts.Nodup

/-- The scan returns. -/
def Terminates (B : Block) : Prop :=
  ∃ turns, Returns (readPartitionTable B turns 0 0) .start fun _ _ => True

/-- The scan goes to the tables one after the other, reads each from its sector, and finds the
partitions. -/
def Follows (B : Block) (ts : List BlockSector) (ps : List Part) : Prop :=
  ∃ turns, Returns (readPartitionTable B turns 0 0) .start fun _ S =>
    S.tables = ts.map (fun s => (s, s)) ∧ S.found = ps.zipIdx 1

/-- **Scanning as it should be**: it ends, and follows a chain that is well-formed. -/
def ScansPartitions (B : Block) : Prop :=
  Terminates B ∧ ∀ ts ps, WellFormed B ts ps → Follows B ts ps

/-- The offsets of the extended partitions in a table. -/
def extendedOffsets (pt : Sector) : List BlockSector :=
  ((partitions pt).filter fun e => ¬e.Empty ∧ e.Extended).map PartitionTableEntry.offset

/-! ### Programs that return from everywhere, or from nowhere -/

/-- The program returns, whatever the scan has done. -/
def Always (x : Prog Scan Unit) : Prop := ∀ S, ∃ S', x.run S = some ((), S')

/-- The program does not return. -/
def Never (x : Prog Scan Unit) : Prop := ∀ S, x.run S = none

section Always

variable {x y : Prog Scan Unit}

theorem always_return : Always (pure ()) := fun S => ⟨S, rfl⟩

theorem Always.bind (hx : Always x) (hy : Always y) : Always (x >>= fun _ => y) := by
  intro S
  obtain ⟨S₁, h₁⟩ := hx S
  obtain ⟨S₂, h₂⟩ := hy S₁
  exact ⟨S₂, (run_bind_of_run h₁).trans h₂⟩

theorem Never.bind (hx : Never x) : Never (x >>= fun _ => y) := by
  intro S
  rw [StateT.run_bind, hx S]
  rfl

theorem Never.after (hx : Always x) (hy : Never y) : Never (x >>= fun _ => y) := by
  intro S
  obtain ⟨S₁, h₁⟩ := hx S
  rw [run_bind_of_run h₁]
  exact hy S₁

theorem always_foundPartition (p : Part) : Always (foundPartition p) := fun _ => ⟨_, rfl⟩

/-- After a table has been read. -/
theorem run_readTable_bind {B : Block} {sector idx : BlockSector} {f : Sector → Prog Scan Unit} (S : Scan) :
    (readTable B sector idx >>= f).run S =
      (f (B.read idx)).run { S with tables := S.tables ++ [(sector, idx)] } := rfl

end Always

/-! ### Where the recursion goes -/

/-- The table, and the sector its entries are relative to, that an extended partition leads to. -/
def target (sector primary offset : BlockSector) : BlockSector × BlockSector :=
  if sector = 0 then (offset, offset) else (offset + primary, primary)

section Parse

variable {rec : BlockSector → BlockSector → Prog Scan Unit} {B : Block} {sector primary : BlockSector}
  {e : PartitionTableEntry} {es : List PartitionTableEntry} {pt : Sector} {o : BlockSector}

theorem mem_extendedOffsets : o ∈ extendedOffsets pt ↔
    ∃ e ∈ partitions pt, (¬e.Empty ∧ e.Extended) ∧ e.offset = o := by
  unfold extendedOffsets
  simp only [List.mem_map, List.mem_filter, decide_eq_true_eq, and_assoc]

/-- An extended partition is scanned. -/
theorem parsePartitions_extended (hfull : ¬e.Empty) (hext : e.Extended) :
    parsePartitions rec sector primary (e :: es) = (do
      rec (target sector primary e.offset).1 (target sector primary e.offset).2
      parsePartitions rec sector primary es) := by
  rw [parsePartitions, if_neg hfull, if_pos hext, target]
  split_ifs <;> rfl

/-- The scan of a table returns if those it refers to do. -/
theorem parsePartitions_always
    (h : ∀ e ∈ es, ¬e.Empty → e.Extended →
      Always (rec (target sector primary e.offset).1 (target sector primary e.offset).2)) :
    Always (parsePartitions rec sector primary es) := by
  induction es with
  | nil => exact always_return
  | cons e es ih =>
    have hrest := ih fun e' he' => h e' (List.mem_cons_of_mem _ he')
    by_cases hempty : e.Empty
    · rw [parsePartitions, if_pos hempty]
      exact hrest
    by_cases hext : e.Extended
    · rw [parsePartitions_extended hempty hext]
      exact (h e List.mem_cons_self hempty hext).bind hrest
    · rw [parsePartitions, if_neg hempty, if_neg hext]
      exact (always_foundPartition _).bind hrest

/-- The first extended partition whose scan does not return is where the loop stops. -/
theorem parsePartitions_never (hrec : ∀ a b, Always (rec a b) ∨ Never (rec a b))
    (h : ∃ e ∈ es, ¬e.Empty ∧ e.Extended ∧
      Never (rec (target sector primary e.offset).1 (target sector primary e.offset).2)) :
    Never (parsePartitions rec sector primary es) := by
  induction es with
  | nil =>
    obtain ⟨e, he, -⟩ := h
    cases he
  | cons e es ih =>
    obtain ⟨e', he', hfull', hext', hnever⟩ := h
    have hrest : e' ≠ e → Never (parsePartitions rec sector primary es) := fun hne =>
      ih ⟨e', (List.mem_cons.1 he').resolve_left hne, hfull', hext', hnever⟩
    by_cases hempty : e.Empty
    · rw [parsePartitions, if_pos hempty]
      refine hrest ?_
      rintro rfl
      exact hfull' hempty
    by_cases hext : e.Extended
    · rw [parsePartitions_extended hempty hext]
      by_cases heq : e' = e
      · subst heq
        exact hnever.bind
      · rcases hrec (target sector primary e.offset).1 (target sector primary e.offset).2 with hx | hx
        · exact .after hx (hrest heq)
        · exact hx.bind
    · rw [parsePartitions, if_neg hempty, if_neg hext]
      refine .after (always_foundPartition _) (hrest ?_)
      rintro rfl
      exact hext hext'

/-- Whether a scan returns does not depend on what has been scanned. -/
theorem readPartitionTable_always_or_never (B : Block) (turns : ℕ) : ∀ sector primary,
    Always (readPartitionTable B turns sector primary) ∨
      Never (readPartitionTable B turns sector primary) := by
  induction turns with
  | zero => exact fun _ _ => .inr fun _ => rfl
  | succ turns ih =>
    intro sector primary
    unfold readPartitionTable
    split_ifs with hpast
    · exact .inl always_return
    by_cases hsigned : Signed (B.read 0)
    · by_cases hall : ∀ e ∈ partitions (B.read 0), ¬e.Empty → e.Extended →
          Always (readPartitionTable B turns (target sector primary e.offset).1
            (target sector primary e.offset).2)
      · refine .inl fun S => ?_
        rw [run_readTable_bind, if_pos hsigned]
        exact parsePartitions_always hall _
      · push Not at hall
        obtain ⟨e, he, hfull, hext, hnot⟩ := hall
        refine .inr fun S => ?_
        rw [run_readTable_bind, if_pos hsigned]
        exact parsePartitions_never ih ⟨e, he, hfull, hext, (ih _ _).resolve_left hnot⟩ _
    · refine .inl fun S => ?_
      rw [run_readTable_bind, if_neg hsigned]
      exact ⟨_, rfl⟩

theorem always_past {turns : ℕ} (h : B.size ≤ sector) :
    Always (readPartitionTable B (turns + 1) sector primary) := by
  unfold readPartitionTable
  rw [if_pos h]
  exact always_return

/-- **A table in the device**: the scan of the first sector's extended partitions. -/
theorem always_table {turns : ℕ}
    (h : Signed (B.read 0) → ∀ o ∈ extendedOffsets (B.read 0),
      Always (readPartitionTable B turns (target sector primary o).1 (target sector primary o).2)) :
    Always (readPartitionTable B (turns + 1) sector primary) := by
  unfold readPartitionTable
  split_ifs with hpast
  · exact always_return
  intro S
  rw [run_readTable_bind]
  split_ifs with hsigned
  · refine parsePartitions_always (fun e he hfull hext => ?_) _
    exact h hsigned e.offset (mem_extendedOffsets.2 ⟨e, he, ⟨hfull, hext⟩, rfl⟩)
  · exact ⟨_, rfl⟩

/-- **A cycle**: where every table leads to one among them, no number of turns is enough.  By
induction on the turns. -/
theorem never_of_cycle (hsigned : Signed (B.read 0)) {C : Set (BlockSector × BlockSector)}
    (hC : ∀ c ∈ C, c.1 < B.size ∧ ∃ o ∈ extendedOffsets (B.read 0), target c.1 c.2 o ∈ C) (turns : ℕ) :
    ∀ c ∈ C, Never (readPartitionTable B turns c.1 c.2) := by
  induction turns with
  | zero => exact fun _ _ _ => rfl
  | succ turns ih =>
    intro c hc S
    obtain ⟨hin, o, ho, hnext⟩ := hC c hc
    obtain ⟨e, he, ⟨hfull, hext⟩, rfl⟩ := mem_extendedOffsets.1 ho
    unfold readPartitionTable
    rw [if_neg (UInt32.not_le.2 hin), run_readTable_bind, if_pos hsigned]
    exact parsePartitions_never (readPartitionTable_always_or_never B turns)
      ⟨e, he, hfull, hext, ih _ hnext⟩ _

/-- **When the scan ends**: an extended partition within the device, taken with any other, leads past
its end. -/
theorem terminates_iff (B : Block) : Terminates B ↔
    (Signed (B.read 0) → ∀ o ∈ extendedOffsets (B.read 0), o < B.size →
      ∀ o' ∈ extendedOffsets (B.read 0), B.size ≤ o' + o) := by
  constructor
  · rintro ⟨turns, hreturns⟩ hsigned o ho hin o' ho'
    by_contra hlt
    rw [UInt32.not_le] at hlt
    have hpos : 0 < B.size := UInt32.lt_of_le_of_lt UInt32.zero_le hin
    let C : Set (BlockSector × BlockSector) := {c | c.1 = 0 ∨ c = (o, o) ∨ c = (o' + o, o)}
    have hC : ∀ c ∈ C, c.1 < B.size ∧ ∃ o ∈ extendedOffsets (B.read 0), target c.1 c.2 o ∈ C := by
      intro c hc
      by_cases hzero : c.1 = 0
      · refine ⟨hzero ▸ hpos, o, ho, .inr (.inl ?_)⟩
        rw [target, if_pos hzero]
      · rcases hc with hc | rfl | rfl
        · exact absurd hc hzero
        · refine ⟨hin, o', ho', .inr (.inr ?_)⟩
          rw [target, if_neg hzero]
        · refine ⟨hlt, o', ho', .inr (.inr ?_)⟩
          rw [target, if_neg hzero]
    obtain ⟨a, S, hrun, -⟩ := hreturns
    have hnever := never_of_cycle hsigned hC turns (0, 0) (.inl rfl) .start
    rw [hrun] at hnever
    cases hnever
  · intro h
    refine ⟨3, ?_⟩
    have halways : Always (readPartitionTable B 3 0 0) := by
      refine always_table fun hsigned o ho => ?_
      rw [target, if_pos rfl]
      by_cases hpast : B.size ≤ o
      · exact always_past hpast
      have hin : o < B.size := UInt32.not_le.1 hpast
      have hne : o ≠ 0 := by
        rintro rfl
        exact hpast (h hsigned 0 ho hin 0 ho)
      refine always_table fun _ o' ho' => ?_
      rw [target, if_neg hne]
      exact always_past (h hsigned o ho hin o' ho')
    obtain ⟨S, hrun⟩ := halways .start
    exact ⟨(), S, hrun, trivial⟩

end Parse

/-! ### What the scan reads and finds -/

/-- Only the device's first sector has been read since. -/
def ReadsFirst (S S' : Scan) : Prop := ∀ x ∈ S'.tables, x ∈ S.tables ∨ x.2 = 0

theorem ReadsFirst.refl (S : Scan) : ReadsFirst S S := fun _ hx => .inl hx

theorem ReadsFirst.trans {S S' S'' : Scan} (h : ReadsFirst S S') (h' : ReadsFirst S' S'') :
    ReadsFirst S S'' := fun x hx => (h' x hx).elim (h x) .inr

section Reads

variable {B : Block} {sector primary : BlockSector} {es : List PartitionTableEntry}
  {ts : List BlockSector} {ps : List Part}

theorem parsePartitions_readsFirst {rec : BlockSector → BlockSector → Prog Scan Unit}
    (hrec : ∀ a b, Preserves ReadsFirst (rec a b)) (sector primary : BlockSector)
    (es : List PartitionTableEntry) : Preserves ReadsFirst (parsePartitions rec sector primary es) := by
  induction es with
  | nil => exact preserves_pure ReadsFirst.refl
  | cons e es ih =>
    by_cases hempty : e.Empty
    · rw [parsePartitions, if_pos hempty]
      exact ih
    by_cases hext : e.Extended
    · rw [parsePartitions_extended hempty hext]
      exact .bind ReadsFirst.trans (hrec _ _) fun _ => ih
    · rw [parsePartitions, if_neg hempty, if_neg hext]
      exact .bind ReadsFirst.trans (preserves_modify fun S => .refl S) fun _ => ih

/-- **Whichever table is meant, the first sector is read.** -/
theorem readPartitionTable_readsFirst (B : Block) (turns : ℕ) : ∀ sector primary,
    Preserves ReadsFirst (readPartitionTable B turns sector primary) := by
  induction turns with
  | zero => exact fun _ _ => preserves_halt
  | succ turns ih =>
    intro sector primary
    unfold readPartitionTable
    split_ifs
    · exact preserves_pure ReadsFirst.refl
    refine .bind ReadsFirst.trans (x := readTable B sector 0) ?_ fun pt => ?_
    · refine .bind ReadsFirst.trans (preserves_modify fun S x hx => ?_) fun _ =>
        preserves_pure ReadsFirst.refl
      rcases List.mem_append.1 hx with hold | hnew
      · exact .inl hold
      · rw [List.mem_singleton.1 hnew]
        exact .inr rfl
    · split_ifs
      · exact parsePartitions_readsFirst ih sector primary _
      · exact preserves_pure ReadsFirst.refl

/-- Entries without an extended partition lead to no table, and are found one after the other. -/
theorem ReachesAll.run_flat (rec : BlockSector → BlockSector → Prog Scan Unit)
    (h : ReachesAll B sector primary es ts ps) (hflat : ∀ e ∈ es, ¬e.Empty → ¬e.Extended) (S : Scan) :
    ts = [] ∧ ∃ S', (parsePartitions rec sector primary es).run S = some ((), S') ∧
      S'.tables = S.tables ∧ S'.found = S.found ++ ps.zipIdx (S.partNr + 1) := by
  induction es generalizing ps S with
  | nil =>
    cases h
    exact ⟨rfl, S, rfl, rfl, (List.append_nil _).symm⟩
  | cons e es ih =>
    have hflat' : ∀ e ∈ es, ¬e.Empty → ¬e.Extended := fun e' he' => hflat e' (List.mem_cons_of_mem _ he')
    cases h with
    | empty hempty rest =>
      rw [parsePartitions, if_pos hempty]
      exact ih rest hflat' S
    | primary hfull hext _ _ => exact absurd hext (hflat e List.mem_cons_self hfull)
    | logical _ hfull hext _ _ => exact absurd hext (hflat e List.mem_cons_self hfull)
    | @partition _ _ _ _ _ ps hfull hplain rest =>
      rw [parsePartitions, if_neg hfull, if_neg hplain]
      obtain ⟨hts, S', hrun, htables, hfound⟩ := ih rest hflat'
        { S with
          partNr := S.partNr + 1
          found := S.found ++ [(⟨e.type, e.offset + sector, e.size⟩, S.partNr + 1)] }
      refine ⟨hts, S', hrun, htables, ?_⟩
      rw [hfound, List.zipIdx_cons, List.append_assoc, List.singleton_append]

/-- An extended partition leads to a table. -/
theorem ReachesAll.tables_ne_nil (h : ReachesAll B sector primary es ts ps) {e : PartitionTableEntry}
    (he : e ∈ es) (hfull : ¬e.Empty) (hext : e.Extended) : ts ≠ [] := by
  induction es generalizing ts ps with
  | nil => cases he
  | cons e' es ih =>
    have hrest : ∀ {ts ps}, ¬(¬e'.Empty ∧ e'.Extended) → ReachesAll B sector primary es ts ps → ts ≠ [] := by
      intro ts ps hne rest
      refine ih rest ((List.mem_cons.1 he).resolve_left ?_)
      rintro rfl
      exact hne ⟨hfull, hext⟩
    cases h with
    | empty hempty rest => exact hrest (fun hand => hand.1 hempty) rest
    | primary _ _ here _ =>
      cases here with
      | table _ _ _ => simp
    | logical _ _ _ here _ =>
      cases here with
      | table _ _ _ => simp
    | partition _ hplain rest => exact hrest (fun hand => hplain hand.2) rest

/-- A chain that is well-formed is followed if and only if it is the first table alone. -/
theorem follows_iff (h : WellFormed B ts ps) : Follows B ts ps ↔ extendedOffsets (B.read 0) = [] := by
  obtain ⟨hreaches, hnodup⟩ := h
  cases hreaches with
  | @table _ _ ts _ inside signed entries =>
    constructor
    · rintro ⟨turns, a, S, hrun, htables, -⟩
      by_contra hne
      obtain ⟨o, ho⟩ := List.exists_mem_of_ne_nil _ hne
      obtain ⟨e, he, ⟨hfull, hext⟩, -⟩ := mem_extendedOffsets.1 ho
      obtain ⟨t, ht⟩ := List.exists_mem_of_ne_nil _ (entries.tables_ne_nil he hfull hext)
      -- the second table should be read from its own sector
      have hmem : (t, t) ∈ S.tables := by
        rw [htables]
        exact List.mem_map_of_mem (List.mem_cons_of_mem _ ht)
      rcases readPartitionTable_readsFirst B turns 0 0 .start a S hrun (t, t) hmem with hstart | hzero
      · cases hstart
      · rw [show t = 0 from hzero] at ht
        exact (List.nodup_cons.1 hnodup).1 ht
    · intro hnone
      have hflat : ∀ e ∈ partitions (B.read 0), ¬e.Empty → ¬e.Extended := by
        intro e he hfull hext
        have hmem := mem_extendedOffsets.2 ⟨e, he, ⟨hfull, hext⟩, rfl⟩
        rw [hnone] at hmem
        cases hmem
      obtain ⟨rfl, S', hrun, htables, hfound⟩ := entries.run_flat (readPartitionTable B 0) hflat
        { Scan.start with tables := [(0, 0)] }
      refine ⟨1, (), S', ?_, htables, hfound⟩
      unfold readPartitionTable
      rw [if_neg (UInt32.not_le.2 inside), run_readTable_bind, if_pos signed]
      exact hrun

/-- **Scanning a device for partitions.**  The scan ends, and follows the chain where that is well-formed,
if and only if every extended partition of the first table that is within the device leads, taken
with any of them, past its end, and a chain that is well-formed has no extended partition. -/
theorem partitionScan_iff (B : Block) : ScansPartitions B ↔
    (Signed (B.read 0) → ∀ o ∈ extendedOffsets (B.read 0), o < B.size →
      ∀ o' ∈ extendedOffsets (B.read 0), B.size ≤ o' + o) ∧
    ((∃ ts ps, WellFormed B ts ps) → extendedOffsets (B.read 0) = []) := by
  unfold ScansPartitions
  rw [terminates_iff]
  refine and_congr_right fun _ => ⟨?_, fun h ts ps hwell => (follows_iff hwell).2 (h ⟨ts, ps, hwell⟩)⟩
  rintro h ⟨ts, ps, hwell⟩
  exact (follows_iff hwell).1 (h ts ps hwell)

end Reads

/-! ### An ordinary disk -/

/-- A signed table of one entry. -/
def oneEntry (type offset size : UInt8) : Sector := fun i =>
  if i.val = 450 then type else if i.val = 454 then offset else if i.val = 458 then size
  else if i.val = 510 then 0x55 else if i.val = 511 then 0xaa else 0

/-- Eight sectors: an extended partition in the last seven, and in it one of the file system. -/
def extendedDisk : Block := ⟨8, fun s => if s = 0 then oneEntry 0x05 1 7 else oneEntry 0x21 1 6⟩

theorem partitions_oneEntry : partitions (oneEntry 0x05 1 7) = ⟨0x05, 1, 7⟩ :: List.replicate 3 ⟨0, 0, 0⟩ ∧
    partitions (oneEntry 0x21 1 6) = ⟨0x21, 1, 6⟩ :: List.replicate 3 ⟨0, 0, 0⟩ := by
  decide

theorem extendedDisk_wellFormed : WellFormed extendedDisk [0, 1] [⟨0x21, 2, 6⟩] := by
  have hempty : ∀ n sector primary,
      ReachesAll extendedDisk sector primary (List.replicate n ⟨0, 0, 0⟩) [] [] := by
    intro n sector primary
    induction n with
    | zero => exact .nil
    | succ n ih => exact .empty (.inl rfl) ih
  have hsecond : Reaches extendedDisk 1 1 [1] [⟨0x21, 2, 6⟩] := by
    refine .table (by decide) (by decide) ?_
    rw [show extendedDisk.read 1 = oneEntry 0x21 1 6 from rfl, partitions_oneEntry.2]
    exact .partition (by decide) (by decide) (hempty 3 1 1)
  refine ⟨.table (by decide) (by decide) ?_, by decide⟩
  rw [show extendedDisk.read 0 = oneEntry 0x05 1 7 from rfl, partitions_oneEntry.1]
  have hall : ReachesAll extendedDisk 0 0 (⟨0x05, 1, 7⟩ :: List.replicate 3 ⟨0, 0, 0⟩) ([1] ++ [])
      ([⟨0x21, 2, 6⟩] ++ []) :=
    .primary (by decide) (by decide) hsecond (hempty 3 0 0)
  exact hall

/-- The scan of it does not end. -/
theorem not_scansPartitions : WellFormed extendedDisk [0, 1] [⟨0x21, 2, 6⟩] ∧
    ¬Terminates extendedDisk ∧ ¬ScansPartitions extendedDisk := by
  have hnot : ¬Terminates extendedDisk := by
    rw [terminates_iff]
    intro h
    have hone : (1 : BlockSector) ∈ extendedOffsets (extendedDisk.read 0) := by decide
    exact absurd (h (by decide) 1 hone (by decide) 1 hone) (by decide)
  exact ⟨extendedDisk_wellFormed, hnot, fun h => hnot h.1⟩

end Devices
end CS162
