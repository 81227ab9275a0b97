/-
# Address spaces

What page directories are for: each is a map from the numbers of pages of addresses to entries.
`Spaces` is these maps, with the pages that callers hold, and `Represents` says that a heap keeps
them.  Every page of the pools then has one use: it is a directory, a page table of one directory,
the page behind one entry for a user's address, held, or not for the callers at all.
-/

import CS162.Paging.Pagedir
import Mathlib.Data.Set.Insert

namespace CS162
namespace Paging

open Basis Threads

/-! ### The maps -/

/-- The directories, what they map, and the pages that are handed out and not mapped. -/
structure Spaces where
  dirs : Set ℕ
  entry : ℕ → ℕ → Option Pte
  held : Set ℕ

/-- The user's page `v` of the directory `d` is the page at `p`. -/
def Spaces.Maps (F : Spaces) (d v p : ℕ) : Prop :=
  d ∈ F.dirs ∧ v / 1024 < 768 ∧ ∃ e, F.entry d v = some e ∧ e.present = true ∧ e.page = p

/-- The callers have the page: it is held or mapped. -/
def Spaces.Has (F : Spaces) (p : ℕ) : Prop := p ∈ F.held ∨ ∃ d v, F.Maps d v p

/-- What the callers' pages hold is the same. -/
def Spaces.Kept (F : Spaces) (m m' : Memory) : Prop :=
  ∀ p, F.Has p → ∀ i < 4096, m' (p + i) = m (p + i)

/-- What a page is used for. -/
inductive PageUse
  | free
  | boot
  | held
  | dir
  | table (d i : ℕ)
  | frame (d v : ℕ)

/-- The directory whose page table region `i` of `d` has: the kernel's regions are shared. -/
def owner (init d i : ℕ) : ℕ := if i < 768 then d else init

theorem owner_init (init i : ℕ) : owner init init i = init := by
  unfold owner
  split_ifs <;> rfl

/-- The page tables of region `i` of the directory `d`. -/
def TableAt (init : ℕ) (use : ℕ → PageUse) (d i p : ℕ) : Prop := use p = .table (owner init d i) i

/-- Every page has the use that the maps say, and no two are the same page table. -/
structure Accounted (R : Ram) (init : ℕ) (boot : Set ℕ) (F : Spaces) (H : KernelHeap)
    (use : ℕ → PageUse) : Prop where
  sized : R.Sized H
  used : ∀ p, R.InUse H p ↔ use p ≠ .free
  boot : ∀ p, use p = .boot ↔ p ∈ boot
  held : ∀ p, use p = .held ↔ p ∈ F.held
  dir : ∀ p, use p = .dir ↔ p ∈ F.dirs
  frame : ∀ p d v, use p = .frame d v ↔ F.Maps d v p
  table : ∀ p d i, use p = .table d i → d ∈ F.dirs ∧ i < 1024 ∧ (i < 768 ↔ d ≠ init)
  tableOne : ∀ p q d i, use p = .table d i → use q = .table d i → p = q
  init : init ∈ F.dirs

/-- The word at an address. -/
def word (m : Memory) (a : ℕ) : ℕ := fieldAt m a 0

/-- The number of a physical page. -/
def Pte.Fits (e : Pte) : Prop := e.frame < 2 ^ 18

/-- **The memory holds the maps**, as the processor reads them. -/
structure InMemory (init : ℕ) (F : Spaces) (m : Memory) (use : ℕ → PageUse) : Prop where
  pde : ∀ d ∈ F.dirs, ∀ i < 1024, ∀ p, TableAt init use d i p →
    word m (d + 4 * i) = (tablePde p).encode
  noPde : ∀ d ∈ F.dirs, ∀ i < 1024, (∀ p, ¬TableAt init use d i p) → word m (d + 4 * i) = 0
  pte : ∀ d ∈ F.dirs, ∀ i p, TableAt init use d i p → ∀ j < 1024,
    ∃ e, F.entry d (1024 * i + j) = some e ∧ e.Fits ∧ word m (p + 4 * j) = e.encode
  noPte : ∀ d ∈ F.dirs, ∀ i < 1024, (∀ p, ¬TableAt init use d i p) → ∀ j < 1024,
    F.entry d (1024 * i + j) = none

/-- The heap keeps the maps. -/
def Represents (R : Ram) (init : ℕ) (boot : Set ℕ) (F : Spaces) (H : KernelHeap) : Prop :=
  ∃ use, Accounted R init boot F H use ∧ InMemory init F H.mem use

variable {R : Ram} {init : ℕ} {boot : Set ℕ} {F F' : Spaces} {H H' : KernelHeap}
  {use use' : ℕ → PageUse} {m m' : Memory} {d d' i i' j k p q v va : ℕ}

/-! ### Words of pages -/

theorem word_sameBut (h : SameBut p m m') (hp : R.IsPage p) (hq : R.IsPage q) (hne : q ≠ p)
    (hk : k < 1024) : word m' (q + 4 * k) = word m (q + 4 * k) := by
  have hapart := hq.apart hp hne
  exact fieldAt_congr fun a hlo hhi => h a (by omega)

theorem word_set (hp : R.IsPage p) (hq : R.IsPage q) (hne : q ≠ p ∨ k ≠ j) (hj : j < 1024)
    (hk : k < 1024) (x : ℕ) :
    word (setFieldAt m (p + 4 * j) 0 x) (q + 4 * k) = word m (q + 4 * k) := by
  refine fieldAt_set_of_apart ?_
  by_cases heq : q = p
  · have hkj := hne.resolve_left (not_not_intro heq)
    omega
  · have hapart := hq.apart hp heq
    omega

theorem set_sameBut (hj : j < 1024) (x : ℕ) : SameBut p m (setFieldAt m (p + 4 * j) 0 x) :=
  fun a ha => setFieldAt_of_apart (by omega)

theorem word_zero (h : ∀ a < 4096, m (p + a) = 0) (hj : j < 1024) : word m (p + 4 * j) = 0 := by
  have hbyte : ∀ a < 4, m (p + 4 * j + a) = 0 := fun a ha => by
    rw [Nat.add_assoc]
    exact h _ (by omega)
  have h0 := hbyte 0 (by omega)
  have h1 := hbyte 1 (by omega)
  have h2 := hbyte 2 (by omega)
  have h3 := hbyte 3 (by omega)
  simp only [word, fieldAt, numberAt, Nat.add_zero] at *
  simp [h0, h1, h2, h3]

/-! ### What the accounts give -/

namespace Accounted

variable (h : Accounted R init boot F H use)
include h

theorem isPage (hp : use p ≠ .free) : R.IsPage p := ((h.used p).2 hp).isPage

theorem dir_isPage (hd : d ∈ F.dirs) : R.IsPage d :=
  h.isPage (by rw [(h.dir d).2 hd]; exact PageUse.noConfusion)

theorem table_isPage (hp : TableAt init use d i p) : R.IsPage p :=
  h.isPage (by rw [hp]; exact PageUse.noConfusion)

theorem table_unique (hp : TableAt init use d i p) (hq : TableAt init use d i q) : p = q :=
  h.tableOne p q _ _ hp hq

theorem table_ne_dir (hp : TableAt init use d i p) (hd : d' ∈ F.dirs) : p ≠ d' := by
  rintro rfl
  have heq : PageUse.dir = .table (owner init d i) i := ((h.dir p).2 hd).symm.trans hp
  cases heq

end Accounted

theorem Spaces.Kept.refl (F : Spaces) (m : Memory) : F.Kept m m := fun _ _ _ _ => rfl

theorem Spaces.Kept.trans {m'' : Memory} (h : F.Kept m m') (h' : F.Kept m' m'') : F.Kept m m'' :=
  fun p hp i hi => (h' p hp i hi).trans (h p hp i hi)

theorem Accounted.has_iff (h : Accounted R init boot F H use) :
    F.Has p ↔ use p = .held ∨ ∃ d v, use p = .frame d v :=
  or_congr (h.held p).symm (exists_congr fun d => exists_congr fun v => (h.frame p d v).symm)

theorem Accounted.has_ne_free (h : Accounted R init boot F H use) (hp : F.Has p) :
    use p ≠ .free := by
  rcases h.has_iff.1 hp with heq | ⟨d, v, heq⟩
  · rw [heq]
    exact PageUse.noConfusion
  · rw [heq]
    exact PageUse.noConfusion

theorem Accounted.has_isPage (h : Accounted R init boot F H use) (hp : F.Has p) : R.IsPage p :=
  h.isPage (h.has_ne_free hp)

/-- A page that the callers do not have is changed. -/
theorem Accounted.kept (h : Accounted R init boot F H use) (hp : R.IsPage p) (hnot : ¬F.Has p)
    (hsame : SameBut p m m') : F.Kept m m' := by
  intro q hq i hi
  have hapart := (h.has_isPage hq).apart hp (fun heq => hnot (heq ▸ hq))
  exact hsame _ (by omega)

theorem Accounted.not_has (h : Accounted R init boot F H use) (hheld : use p ≠ .held)
    (hframe : ∀ d v, use p ≠ .frame d v) : ¬F.Has p := by
  rw [h.has_iff]
  rintro (heq | ⟨d, v, heq⟩)
  · exact hheld heq
  · exact hframe d v heq

/-- A page table is not the callers'. -/
theorem Accounted.table_not_has (h : Accounted R init boot F H use)
    (hp : TableAt init use d i p) : ¬F.Has p :=
  h.not_has (fun heq => by cases hp.symm.trans heq) fun _ _ heq => by cases hp.symm.trans heq

/-- The word of an entry is not in a page of the callers. -/
theorem Accounted.kept_entry {a : ℕ} (h : Accounted R init boot F H use)
    (hp : TableAt init use d i p) (ha : a = p + 4 * (v % 1024)) (x : ℕ) :
    F.Kept m (setFieldAt m a 0 x) := by
  rw [ha]
  exact h.kept (h.table_isPage hp) (h.table_not_has hp) (set_sameBut (Nat.mod_lt _ (by omega)) x)

theorem Accounted.dir_not_has (h : Accounted R init boot F H use) (hd : d ∈ F.dirs) :
    ¬F.Has d :=
  h.not_has (fun heq => by cases ((h.dir d).2 hd).symm.trans heq)
    fun _ _ heq => by cases ((h.dir d).2 hd).symm.trans heq

/-- In a region of the user's addresses a directory has its own page tables. -/
theorem tableAt_of_lt (hi : i < 768) : TableAt init use d i p ↔ use p = .table d i := by
  unfold TableAt owner
  rw [if_pos hi]

theorem tableAt_init : TableAt init use init i p ↔ use p = .table init i := by
  unfold TableAt
  rw [owner_init]

/-- A page table is of one region, and of one directory or the kernel's. -/
theorem TableAt.inj (hp : TableAt init use d i p) (hp' : TableAt init use d' i' p) :
    i = i' ∧ owner init d i = owner init d' i := by
  have heq : PageUse.table (owner init d i) i = .table (owner init d' i') i' := hp.symm.trans hp'
  obtain ⟨hown, rfl⟩ := PageUse.table.inj heq
  exact ⟨rfl, hown⟩

theorem Pte.Fits.page_lt {e : Pte} (h : e.Fits) : e.page < 2 ^ 32 := by
  unfold Pte.Fits at h
  unfold Pte.page physBase
  omega

theorem Pte.Fits.frame_lt {e : Pte} (h : e.Fits) : e.frame < 2 ^ 20 := by
  unfold Pte.Fits at h
  omega

theorem Ram.IsPage.fits (h : R.IsPage p) {e : Pte} (he : e.frame = frameOf p) : e.Fits := by
  have hb := h.bounds
  unfold Pte.Fits
  rw [he]
  unfold frameOf physBase at *
  omega

/-- The page of addresses `v` of region `v / 1024`. -/
theorem region_add (v : ℕ) : 1024 * (v / 1024) + v % 1024 = v := Nat.div_add_mod v 1024

/-! ### Looking an entry up -/

section
variable {α : Type}

theorem returns_readWord_bind {f : ℕ → OnHeap α} {Q : α → KernelHeap → Prop} (hp : p ≠ 0) :
    Returns (readWord p >>= f) H Q ↔ Returns (f (word H.mem p)) H Q := by
  unfold readWord
  exact returns_onMem_readField hp

theorem returns_writeWord_bind {x : ℕ} {f : Unit → OnHeap α} {Q : α → KernelHeap → Prop}
    (hp : p ≠ 0) : Returns (writeWord p x >>= f) H Q ↔
      Returns (f ()) { H with mem := setFieldAt H.mem p 0 x } Q := by
  unfold writeWord
  exact returns_onMem_writeField hp

theorem returns_writeWord {x : ℕ} {Q : Unit → KernelHeap → Prop} (hp : p ≠ 0) :
    Returns (writeWord p x) H Q ↔ Q () { H with mem := setFieldAt H.mem p 0 x } := by
  have hbind := returns_writeWord_bind (H := H) (x := x) (f := fun u => pure u) (Q := Q) hp
  rwa [bind_pure, returns_pure] at hbind

end

/-- The end of `lookup_page` gives the address of the entry. -/
theorem pageEntry_returns (h : Accounted R init boot F H use) (hm : InMemory init F H.mem use)
    (hd : d ∈ F.dirs) (hva : va < 2 ^ 32) (hp : TableAt init use d (va / 4096 / 1024) p)
    {Q : ℕ → KernelHeap → Prop} (hQ : Q (p + 4 * (va / 4096 % 1024)) H) :
    Returns (pageEntry d va) H Q := by
  have hdpage := h.dir_isPage hd
  have hppage := h.table_isPage hp
  have hne := hdpage.ne_zero
  unfold pageEntry
  rw [pdNo_eq, ptNo_eq, returns_readWord_bind (by omega), hm.pde d hd _ (by omega) p hp,
    returns_pdeGetPt_bind hppage.aligned hppage.bounds.1 (by have := hppage.bounds; omega)]
  exact returns_pure.2 hQ

theorem tablePde_ne_zero (p : ℕ) : (tablePde p).encode ≠ 0 := by
  have hpresent : (tablePde p).encode &&& pteP ≠ 0 := (Pte.encode_and_present _).2 rfl
  intro h0
  rw [h0] at hpresent
  exact hpresent rfl

/-- What `lookup_page` finds: no entry, or the address of the word of one. -/
def Found (init : ℕ) (F : Spaces) (use : ℕ → PageUse) (m : Memory) (d v a : ℕ) : Prop :=
  a = 0 ∧ F.entry d v = none ∨ ∃ p e, TableAt init use d (v / 1024) p ∧
    a = p + 4 * (v % 1024) ∧ a ≠ 0 ∧ F.entry d v = some e ∧ e.Fits ∧ word m a = e.encode

/-- `lookup_page` in a region that has a page table. -/
theorem lookupPage_table (h : Accounted R init boot F H use) (hm : InMemory init F H.mem use)
    (hd : d ∈ F.dirs) (hva : va < 2 ^ 32) {create : Bool} (hcreate : create = true → va < physBase)
    (hp : TableAt init use d (va / 4096 / 1024) p) :
    Returns (lookupPage R d va create) H fun a H' => H' = H ∧ a ≠ 0 ∧
      Found init F use H.mem d (va / 4096) a := by
  have hne := (h.dir_isPage hd).ne_zero
  have hp0 := (h.table_isPage hp).ne_zero
  obtain ⟨e, he, hfits, hword⟩ := hm.pte d hd _ p hp (va / 4096 % 1024) (Nat.mod_lt _ (by omega))
  rw [region_add] at he
  unfold lookupPage
  refine returns_assert (decide_eq_true hne) ?_
  refine returns_assert ?_ ?_
  · cases create with
    | false => rfl
    | true => exact decide_eq_true (hcreate rfl)
  rw [returns_readWord_bind (by omega), pdNo_eq, hm.pde d hd _ (by omega) p hp,
    if_neg (tablePde_ne_zero p)]
  exact pageEntry_returns h hm hd hva hp
    ⟨rfl, by omega, .inr ⟨p, e, hp, rfl, by omega, he, hfits, hword⟩⟩

/-- **`lookup_page` that creates nothing.** -/
theorem lookupPage_found (h : Accounted R init boot F H use) (hm : InMemory init F H.mem use)
    (hd : d ∈ F.dirs) (hva : va < 2 ^ 32) : Returns (lookupPage R d va false) H fun a H' =>
      H' = H ∧ Found init F use H.mem d (va / 4096) a := by
  by_cases htable : ∃ p, TableAt init use d (va / 4096 / 1024) p
  · obtain ⟨p, hp⟩ := htable
    exact (lookupPage_table h hm hd hva (fun hfalse => absurd hfalse Bool.false_ne_true) hp).mono
      fun a H' hpost => ⟨hpost.1, hpost.2.2⟩
  · have hnone := fun p hp => htable ⟨p, hp⟩
    have hne := (h.dir_isPage hd).ne_zero
    have he := hm.noPte d hd _ (by omega) hnone (va / 4096 % 1024) (Nat.mod_lt _ (by omega))
    rw [region_add] at he
    unfold lookupPage
    refine returns_assert (decide_eq_true hne) ?_
    rw [returns_assert_bind]
    refine ⟨rfl, ?_⟩
    rw [returns_readWord_bind (by omega), pdNo_eq, hm.noPde d hd _ (by omega) hnone, if_pos rfl]
    exact returns_pure.2 ⟨rfl, .inl ⟨rfl, he⟩⟩

/-! ### Changes -/

/-- The maps depend on the uses of page tables and on the words of these and of the directories. -/
theorem InMemory.congr (hm : InMemory init F m use) (hdirs : ∀ d ∈ F'.dirs, d ∈ F.dirs)
    (hentry : ∀ d ∈ F'.dirs, F'.entry d = F.entry d)
    (htable : ∀ d ∈ F'.dirs, ∀ i p, TableAt init use' d i p ↔ TableAt init use d i p)
    (hwordDir : ∀ d ∈ F'.dirs, ∀ k < 1024, word m' (d + 4 * k) = word m (d + 4 * k))
    (hwordTable : ∀ d ∈ F'.dirs, ∀ i p, TableAt init use d i p → ∀ k < 1024,
      word m' (p + 4 * k) = word m (p + 4 * k)) : InMemory init F' m' use' where
  pde d hd i hi p hp := by
    rw [hwordDir d hd i hi]
    exact hm.pde d (hdirs d hd) i hi p ((htable d hd i p).1 hp)
  noPde d hd i hi hno := by
    rw [hwordDir d hd i hi]
    exact hm.noPde d (hdirs d hd) i hi fun p hp => hno p ((htable d hd i p).2 hp)
  pte d hd i p hp j hj := by
    have hp' := (htable d hd i p).1 hp
    rw [hwordTable d hd i p hp' j hj, hentry d hd]
    exact hm.pte d (hdirs d hd) i p hp' j hj
  noPte d hd i hi hno j hj := by
    rw [hentry d hd]
    exact hm.noPte d (hdirs d hd) i hi (fun p hp => hno p ((htable d hd i p).2 hp)) j hj

/-- What has a use that the page at `p` neither had nor gets is the same. -/
theorem iff_of_other {P : ℕ → Prop} {u : PageUse} {X : Prop} (hP : ∀ q, use q = u ↔ P q)
    (hold : use p ≠ u) (hnew : ¬X) (q : ℕ) : P q ↔ if q = p then X else P q := by
  split_ifs with hq
  · rw [hq]
    exact iff_of_false (fun h => hold ((hP p).2 h)) hnew
  · exact Iff.rfl

/-- **One page has another use**, and the maps change by no more than that. -/
theorem Accounted.relabel {u : PageUse} (h : Accounted R init boot F H use) (hsized : R.Sized H')
    (hused : ∀ q, R.InUse H' q ↔ if q = p then u ≠ .free else R.InUse H q)
    (hold : use p ≠ .boot ∧ use p ≠ .dir) (hu : u ≠ .boot)
    (hheld : ∀ q, q ∈ F'.held ↔ if q = p then u = .held else q ∈ F.held)
    (hdir : ∀ q, q ∈ F'.dirs ↔ if q = p then u = .dir else q ∈ F.dirs)
    (hframe : ∀ q d v, F'.Maps d v q ↔ if q = p then u = .frame d v else F.Maps d v q)
    (htable : ∀ d i, u = .table d i →
      d ∈ F'.dirs ∧ i < 1024 ∧ (i < 768 ↔ d ≠ init) ∧ ∀ q, use q ≠ .table d i) :
    Accounted R init boot F' H' (Function.update use p u) := by
  have hnew : ∀ q, Function.update use p u q = if q = p then u else use q := fun q =>
    Function.update_apply use p u q
  have hdirs : ∀ q ∈ F.dirs, q ∈ F'.dirs := by
    intro q hq
    rw [hdir, if_neg]
    · exact hq
    · rintro rfl
      exact hold.2 ((h.dir q).2 hq)
  constructor
  · exact hsized
  · intro q
    rw [hused, hnew]
    split_ifs
    · exact Iff.rfl
    · exact h.used q
  · intro q
    rw [hnew]
    split_ifs with heq
    · refine ⟨fun hboot => absurd hboot hu, fun hq => ?_⟩
      rw [heq] at hq
      exact absurd ((h.boot p).2 hq) hold.1
    · exact h.boot q
  · intro q
    rw [hnew, hheld]
    split_ifs
    · exact Iff.rfl
    · exact h.held q
  · intro q
    rw [hnew, hdir]
    split_ifs
    · exact Iff.rfl
    · exact h.dir q
  · intro q d v
    rw [hnew, hframe]
    split_ifs
    · exact Iff.rfl
    · exact h.frame q d v
  · intro q d i hq
    rw [hnew] at hq
    split_ifs at hq with heq
    · obtain ⟨hd, hi, hshared, -⟩ := htable d i hq
      exact ⟨hd, hi, hshared⟩
    · obtain ⟨hd, hrest⟩ := h.table q d i hq
      exact ⟨hdirs d hd, hrest⟩
  · intro q q' d i hq hq'
    rw [hnew] at hq hq'
    split_ifs at hq hq' with heq heq' heq'
    · rw [heq, heq']
    · exact absurd hq' ((htable d i hq).2.2.2 q')
    · exact absurd hq ((htable d i hq').2.2.2 q)
    · exact h.tableOne q q' d i hq hq'
  · exact hdirs init h.init

/-- The maps say less of the accounts than this. -/
theorem Accounted.congr (h : Accounted R init boot F H use) (hsized : R.Sized H')
    (hused : ∀ q, R.InUse H' q ↔ R.InUse H q) (hheld : F'.held = F.held)
    (hdirs : F'.dirs = F.dirs) (hframe : ∀ q d v, F'.Maps d v q ↔ F.Maps d v q) :
    Accounted R init boot F' H' use where
  sized := hsized
  used q := (hused q).trans (h.used q)
  boot := h.boot
  held q := by rw [hheld, h.held]
  dir q := by rw [hdirs, h.dir]
  frame q d v := (h.frame q d v).trans (hframe q d v).symm
  table q d i hq := by
    rw [hdirs]
    exact h.table q d i hq
  tableOne := h.tableOne
  init := by
    rw [hdirs]
    exact h.init

end Paging
end CS162
