/-
# Directories come and go

Pages that callers get, give back and write to; `pagedir_create`, whose directory has the
kernel's regions; and `pagedir_destroy`, which gives back every page that is mapped, every page
table and the directory, each of them once.
-/

import CS162.Paging.Calls

namespace CS162
namespace Paging

open Basis Threads

variable {R : Ram} {init : ℕ} {boot : Set ℕ} {F F' : Spaces} {H H' : KernelHeap}
  {use use' : ℕ → PageUse} {m m' : Memory} {d d' i i' j k p q r v v' va : ℕ} {e : Pte}

/-! ### Pages of the callers -/

/-- The words of the directories and page tables are not in a page of another use. -/
theorem InMemory.sameBut (h : Accounted R init boot F H use) (hm : InMemory init F m use)
    (hp : R.IsPage p) (hdir : use p ≠ .dir) (htable : ∀ d i, use p ≠ .table d i)
    (hsame : SameBut p m m') : InMemory init F m' use := by
  refine hm.congr (fun _ hd => hd) (fun _ _ => rfl) (fun _ _ _ _ => Iff.rfl) (fun d hd k hk => ?_)
    fun d _ i q hq k hk => ?_
  · refine word_sameBut hsame hp (h.dir_isPage hd) ?_ hk
    rintro rfl
    exact hdir ((h.dir d).2 hd)
  · refine word_sameBut hsame hp (h.table_isPage hq) ?_ hk
    rintro rfl
    exact htable _ _ hq

/-- A page that was free is held. -/
theorem Represents.got (hr : Represents R init boot F H) (hgot : R.Got H H' p) :
    Represents R init boot { F with held := insert p F.held } H' := by
  obtain ⟨use, h, hm⟩ := hr
  have hfree := h.free_of_fresh hgot.fresh
  have hnot : ∀ u : PageUse, u ≠ .free → use p ≠ u := fun u hu heq => hu (heq.symm.trans hfree)
  refine ⟨Function.update use p .held, ?_, ?_⟩
  · refine h.relabel hgot.sized (hgot.used_ite PageUse.noConfusion)
      ⟨hnot _ PageUse.noConfusion, hnot _ PageUse.noConfusion⟩ PageUse.noConfusion (fun q => ?_)
      (iff_of_other h.dir (hnot _ PageUse.noConfusion) PageUse.noConfusion) (fun q d v => ?_)
      fun d i heq => by cases heq
    · split_ifs with hq
      · exact iff_of_true (.inl hq) rfl
      · exact ⟨fun hmem => hmem.resolve_left hq, .inr⟩
    · exact iff_of_other (fun q => h.frame q d v) (hnot _ PageUse.noConfusion)
        PageUse.noConfusion q
  · refine (hm.sameBut h hgot.page (hnot _ PageUse.noConfusion)
      (fun d i => hnot _ PageUse.noConfusion) hgot.mem).relabel _
      (fun d i => hnot _ PageUse.noConfusion) fun d i heq => by cases heq

/-- A page that was held is free. -/
theorem Represents.gave (hr : Represents R init boot F H) (hp : p ∈ F.held)
    (hgave : R.Gave H H' p) : Represents R init boot { F with held := F.held \ {p} } H' := by
  obtain ⟨use, h, hm⟩ := hr
  have hheld := (h.held p).2 hp
  have hnot : ∀ u : PageUse, u ≠ .held → use p ≠ u := fun u hu heq => hu (heq.symm.trans hheld)
  have hpage := h.isPage (hnot .free PageUse.noConfusion)
  refine ⟨Function.update use p .free, ?_, ?_⟩
  · refine h.relabel hgave.sized (fun q => ?_)
      ⟨hnot _ PageUse.noConfusion, hnot _ PageUse.noConfusion⟩ PageUse.noConfusion (fun q => ?_)
      (iff_of_other h.dir (hnot _ PageUse.noConfusion) PageUse.noConfusion) (fun q d v => ?_)
      fun d i heq => by cases heq
    · refine (hgave.used q).trans ?_
      by_cases hq : q = p <;> simp [hq]
    · split_ifs with hq
      · exact iff_of_false (fun hmem => hmem.2 hq) id
      · exact ⟨fun hmem => hmem.1, fun hmem => ⟨hmem, hq⟩⟩
    · exact iff_of_other (fun q => h.frame q d v) (hnot _ PageUse.noConfusion)
        PageUse.noConfusion q
  · refine (hm.sameBut h hpage (hnot _ PageUse.noConfusion)
      (fun d i => hnot _ PageUse.noConfusion) hgave.mem).relabel _
      (fun d i => hnot _ PageUse.noConfusion) fun d i heq => by cases heq

/-- The page that is given back is the only one that changes. -/
theorem Represents.gave_kept (hr : Represents R init boot F H) (hp : p ∈ F.held)
    (hgave : R.Gave H H' p) : { F with held := F.held \ {p} }.Kept H.mem H'.mem := by
  obtain ⟨use, h, -⟩ := hr.gave hp hgave
  have hfree : ¬R.InUse H' p := fun hin => ((hgave.used p).1 hin).2 rfl
  obtain ⟨use₀, h₀, -⟩ := hr
  exact h.kept (h₀.has_isPage (.inl hp)) (h.fresh_not_has hfree) hgave.mem

/-- A page of the callers may hold anything. -/
theorem Represents.write (hr : Represents R init boot F H) (hp : F.Has p)
    (hsame : SameBut p H.mem m') : Represents R init boot F { H with mem := m' } := by
  obtain ⟨use, h, hm⟩ := hr
  have hnot : use p ≠ .dir ∧ ∀ d i, use p ≠ .table d i := by
    rcases h.has_iff.1 hp with heq | ⟨d, v, heq⟩
    · rw [heq]
      exact ⟨PageUse.noConfusion, fun _ _ => PageUse.noConfusion⟩
    · rw [heq]
      exact ⟨PageUse.noConfusion, fun _ _ => PageUse.noConfusion⟩
  exact ⟨use, h.congr h.sized (fun q => Iff.rfl) rfl rfl fun q d v => Iff.rfl,
    hm.sameBut h (h.has_isPage hp) hnot.1 hnot.2 hsame⟩

/-! ### `pagedir_create` -/

theorem numberAt_shift {n : ℕ} (h : ∀ a < n, m' (p + a) = m (q + a)) :
    numberAt m' p n = numberAt m q n := by
  induction n generalizing p q with
  | zero => rfl
  | succ n ih =>
    have hfirst := h 0 (Nat.succ_pos n)
    have hrest : numberAt m' (p + 1) n = numberAt m (q + 1) n := by
      refine ih fun a ha => ?_
      rw [Nat.add_assoc, Nat.add_assoc, Nat.add_comm 1]
      exact h (a + 1) (by omega)
    rw [Nat.add_zero, Nat.add_zero] at hfirst
    rw [numberAt, numberAt, hfirst, hrest]

/-- The words of a page that was copied. -/
theorem word_memcpy (hk : k < 1024) :
    word (store m p ((List.range pgsize).map fun i => m (q + i))) (p + 4 * k) =
      word m (q + 4 * k) := by
  refine numberAt_shift fun a ha => ?_
  have hlt : 4 * k + a < pgsize := by
    unfold pgsize
    omega
  rw [store, if_pos (by omega), List.getElem?_map, List.getElem?_range (by omega)]
  change m (q + (p + 4 * k + 0 + a - p)) = _
  congr 1
  omega

theorem sub_sameBut {bs : List UInt8} (hgot : SameBut p m m') (hlen : bs.length = pgsize) :
    SameBut p m (store m' p bs) := fun a ha =>
  (store_sameBut (Nat.le_of_eq hlen) a ha).trans (hgot a ha)

theorem maps_addDir (hr : r ∉ F.dirs) : (F.addDir init r).Maps d v q ↔ F.Maps d v q := by
  unfold Spaces.Maps Spaces.addDir
  dsimp only
  by_cases hd : d = r
  · rw [hd]
    refine iff_of_false ?_ fun hmaps => hr hmaps.1
    rintro ⟨-, hv, e, he, -⟩
    rw [if_pos rfl, if_pos hv] at he
    cases he
  · rw [if_neg hd]
    constructor
    · rintro ⟨hmem, hrest⟩
      exact ⟨hmem.resolve_left hd, hrest⟩
    · rintro ⟨hmem, hrest⟩
      exact ⟨.inr hmem, hrest⟩

/-- **A copy of `init_page_dir` is a directory for the kernel's addresses.** -/
theorem InMemory.addDir (h : Accounted R init boot F H use) (hm : InMemory init F H.mem use)
    (hgot : R.Got H H' r) (hcopy : SameBut r H.mem m')
    (hwords : ∀ k < 1024, word m' (r + 4 * k) = word H.mem (init + 4 * k)) :
    InMemory init (F.addDir init r) m' (Function.update use r .dir) := by
  have hfree := h.free_of_fresh hgot.fresh
  have hnot : ∀ u : PageUse, u ≠ .free → use r ≠ u := fun u hu heq => hu (heq.symm.trans hfree)
  have htable : ∀ d i q, TableAt init (Function.update use r .dir) d i q ↔
      TableAt init use d i q := by
    intro d i q
    unfold TableAt
    rw [Function.update_apply]
    split_ifs with hq
    · rw [hq]
      exact iff_of_false id (hnot _ PageUse.noConfusion)
    · exact Iff.rfl
  have hrdir : r ∉ F.dirs := fun hmem => hnot .dir PageUse.noConfusion ((h.dir r).2 hmem)
  -- the new directory has the kernel's tables, and `init_page_dir` has no other
  have hshare : ∀ i q, TableAt init use r i q ↔ 768 ≤ i ∧ TableAt init use init i q := by
    intro i q
    unfold TableAt owner
    split_ifs with hi
    · refine iff_of_false (fun heq => hrdir (h.table q r i heq).1) fun hboth => ?_
      exact absurd hboth.1 (Nat.not_le.2 hi)
    · exact (and_iff_right (Nat.not_lt.1 hi)).symm
  have hkernel : ∀ i q, TableAt init use init i q → 768 ≤ i := by
    intro i q hq
    by_contra hlt
    exact (h.table q init i (tableAt_init.1 hq)).2.2.1 (Nat.not_le.1 hlt) rfl
  have hwordDir : ∀ d ∈ F.dirs, ∀ k < 1024, word m' (d + 4 * k) = word H.mem (d + 4 * k) := by
    intro d hd k hk
    refine word_sameBut hcopy hgot.page (h.dir_isPage hd) ?_ hk
    rintro rfl
    exact hrdir hd
  have hwordTable : ∀ d i q, TableAt init use d i q → ∀ k < 1024,
      word m' (q + 4 * k) = word H.mem (q + 4 * k) := by
    intro d i q hq k hk
    refine word_sameBut hcopy hgot.page (h.table_isPage hq) ?_ hk
    rintro rfl
    exact hnot _ PageUse.noConfusion hq
  have hentry : ∀ d ∈ F.dirs, (F.addDir init r).entry d = F.entry d := by
    intro d hd
    funext v
    refine if_neg ?_
    rintro rfl
    exact hrdir hd
  have hentryNew : ∀ v, 768 ≤ v / 1024 → (F.addDir init r).entry r v = F.entry init v :=
    fun v hv => (if_pos rfl).trans (if_neg (Nat.not_lt.2 hv))
  constructor
  · intro d hd i hi q hq
    rw [htable] at hq
    rcases hd with rfl | hd
    · rw [hwords i hi]
      exact hm.pde init h.init i hi q ((hshare i q).1 hq).2
    · rw [hwordDir d hd i hi]
      exact hm.pde d hd i hi q hq
  · intro d hd i hi hno
    rcases hd with rfl | hd
    · rw [hwords i hi]
      refine hm.noPde init h.init i hi fun q hq => hno q ((htable d i q).2 ?_)
      exact (hshare i q).2 ⟨hkernel i q hq, hq⟩
    · rw [hwordDir d hd i hi]
      exact hm.noPde d hd i hi fun q hq => hno q ((htable d i q).2 hq)
  · intro d hd i q hq j hj
    rw [htable] at hq
    rw [hwordTable d i q hq j hj]
    rcases hd with rfl | hd
    · obtain ⟨hi, hq'⟩ := (hshare i q).1 hq
      rw [hentryNew _ (by omega)]
      exact hm.pte init h.init i q hq' j hj
    · rw [hentry d hd]
      exact hm.pte d hd i q hq j hj
  · intro d hd i hi hno j hj
    rcases hd with rfl | hd
    · by_cases hlow : i < 768
      · exact (if_pos rfl).trans (if_pos (by omega))
      · rw [hentryNew _ (by omega)]
        refine hm.noPte init h.init i hi (fun q hq => hno q ((htable d i q).2 ?_)) j hj
        exact (hshare i q).2 ⟨hkernel i q hq, hq⟩
    · rw [hentry d hd]
      exact hm.noPte d hd i hi (fun q hq => hno q ((htable d i q).2 hq)) j hj

/-- A page that was got becomes a directory. -/
theorem Accounted.addDir (h : Accounted R init boot F H use) (hgot : R.Got H H' r)
    (m' : Memory) : Accounted R init boot (F.addDir init r) { H' with mem := m' }
      (Function.update use r .dir) := by
  have hfree := h.free_of_fresh hgot.fresh
  have hnot : ∀ u : PageUse, u ≠ .free → use r ≠ u := fun u hu heq => hu (heq.symm.trans hfree)
  have hrdir : r ∉ F.dirs := fun hmem => hnot .dir PageUse.noConfusion ((h.dir r).2 hmem)
  refine h.relabel hgot.sized (hgot.used_ite PageUse.noConfusion)
    ⟨hnot _ PageUse.noConfusion, hnot _ PageUse.noConfusion⟩ PageUse.noConfusion
    (iff_of_other h.held (hnot _ PageUse.noConfusion) PageUse.noConfusion) (fun q => ?_)
    (fun q d v => ?_) fun d i heq => by cases heq
  · split_ifs with hq
    · exact iff_of_true (.inl hq) rfl
    · exact ⟨fun hmem => hmem.resolve_left hq, .inr⟩
  · rw [maps_addDir hrdir]
    exact iff_of_other (fun q => h.frame q d v) (hnot _ PageUse.noConfusion)
      PageUse.noConfusion q

/-- **`pagedir_create`** fails where the kernel has no page. -/
theorem pagedirCreate_returns (hr : Represents R init boot F H) :
    Returns (pagedirCreate R init) H fun a H' =>
      (a = 0 ∧ H' = H ∧ R.Full H false) ∨ R.IsPage a ∧ ¬R.InUse H a ∧ ¬R.Full H false ∧
        Represents R init boot (F.addDir init a) H' ∧ F.Kept H.mem H'.mem := by
  obtain ⟨use, h, hm⟩ := hr
  unfold pagedirCreate
  refine (pallocGetPage_got h.sized false false).seq ?_
  rintro a H₁ (⟨rfl, rfl, hfull⟩ | ⟨hgot, -, k, hk, hak⟩)
  · exact returns_pure.2 (.inl ⟨rfl, rfl, hfull⟩)
  · rw [if_pos hgot.page.ne_zero]
    unfold memcpy
    rw [returns_modify_bind]
    have hinit : init ≠ a := by
      rintro rfl
      exact hgot.fresh ((h.used init).2 (by rw [(h.dir init).2 h.init]; exact PageUse.noConfusion))
    refine returns_pure.2 (.inr ⟨hgot.page, hgot.fresh, fun hfull => ?_, ⟨_,
      h.addDir hgot _, hm.addDir h hgot (sub_sameBut hgot.mem (by simp)) fun k hk => ?_⟩,
      h.kept hgot.page (h.fresh_not_has hgot.fresh) (sub_sameBut hgot.mem (by simp))⟩)
    · exact hgot.fresh (hak ▸ hfull k hk)
    · rw [word_memcpy hk]
      exact word_sameBut hgot.mem hgot.page (h.dir_isPage h.init) hinit hk

/-! ### `pagedir_destroy` -/

/-- The pages of `A` were given back. -/
structure Ram.Freed (R : Ram) (H H' : KernelHeap) (A : Set ℕ) : Prop where
  sized : R.Sized H'
  used : ∀ q, R.InUse H' q ↔ R.InUse H q ∧ q ∉ A
  mem : ∀ a, (∀ p ∈ A, a < p ∨ p + 4096 ≤ a) → H'.mem a = H.mem a

theorem Ram.Freed.congr {A B : Set ℕ} (h : R.Freed H H' A) (hAB : ∀ q, q ∈ B ↔ q ∈ A) :
    R.Freed H H' B where
  sized := h.sized
  used q := by rw [h.used, hAB]
  mem a ha := h.mem a fun p hp => ha p ((hAB p).2 hp)

theorem Ram.Freed.gave {H'' : KernelHeap} {A B : Set ℕ} (h : R.Freed H H' A)
    (hgave : R.Gave H' H'' p) (hB : ∀ q, q ∈ B ↔ q ∈ A ∨ q = p) : R.Freed H H'' B where
  sized := hgave.sized
  used q := by rw [hgave.used, h.used, hB, not_or, and_assoc]
  mem a ha := (hgave.mem a (ha p ((hB p).2 (.inr rfl)))).trans
    (h.mem a fun q hq => ha q ((hB q).2 (.inl hq)))

theorem Ram.Freed.word {A : Set ℕ} (h : R.Freed H H' A) (hA : ∀ p ∈ A, R.IsPage p)
    (hq : R.IsPage q) (hqA : q ∉ A) (hk : k < 1024) :
    word H'.mem (q + 4 * k) = word H.mem (q + 4 * k) := by
  refine fieldAt_congr fun a hlo hhi => h.mem a fun p hp => ?_
  have hapart := hq.apart (hA p hp) (fun heq => hqA (heq ▸ hp))
  omega

/-- What is given back when the loops of `pagedir_destroy` are at entry `j` of region `i`. -/
def Gone (use : ℕ → PageUse) (d i j : ℕ) : Set ℕ :=
  {q | (∃ v < 1024 * i + j, use q = .frame d v) ∨ ∃ i' < i, use q = .table d i'}

theorem gone_isPage (h : Accounted R init boot F H use) : ∀ p ∈ Gone use d i j, R.IsPage p := by
  rintro p (⟨v, -, heq⟩ | ⟨i', -, heq⟩)
  · exact h.isPage (by rw [heq]; exact PageUse.noConfusion)
  · exact h.isPage (by rw [heq]; exact PageUse.noConfusion)

/-- The directory is not among them. -/
theorem dir_not_gone (h : Accounted R init boot F H use) (hd : d' ∈ F.dirs) :
    d' ∉ Gone use d i j := by
  have hdir := (h.dir d').2 hd
  rintro (⟨v, -, heq⟩ | ⟨i', -, heq⟩)
  · cases hdir.symm.trans heq
  · cases hdir.symm.trans heq

/-- Nor is the page table that the loops are at. -/
theorem table_not_gone (hp : use p = .table d i) : p ∉ Gone use d i j := by
  rintro (⟨v, -, heq⟩ | ⟨i', hi', heq⟩)
  · cases hp.symm.trans heq
  · obtain ⟨-, rfl⟩ := PageUse.table.inj (hp.symm.trans heq)
    exact Nat.lt_irrefl _ hi'

/-- **One round of the inner loop.** -/
theorem freeFrame_returns {H₁ : KernelHeap} (h : Accounted R init boot F H use)
    (hm : InMemory init F H.mem use) (hd : d ∈ F.dirs) (hi : i < 768)
    (hp : use p = .table d i) (hj : j < 1024) (hf : R.Freed H H₁ (Gone use d i j)) :
    Returns (freeFrame R p j) H₁ fun _ H₂ => R.Freed H H₂ (Gone use d i (j + 1)) := by
  have hown : TableAt init use d i p := (tableAt_of_lt hi).2 hp
  obtain ⟨e, he, hfits, hword⟩ := hm.pte d hd i p hown j hj
  have hppage := h.table_isPage hown
  have hp0 := hppage.ne_zero
  rw [← hf.word (gone_isPage h) hppage (table_not_gone hp) hj] at hword
  have hmaps : ∀ q, use q = .frame d (1024 * i + j) ↔ e.present = true ∧ e.page = q := by
    intro q
    rw [h.frame]
    constructor
    · rintro ⟨-, -, e', he', hpq⟩
      rw [he] at he'
      rwa [Option.some.inj he']
    · exact fun hpq => ⟨hd, by omega, e, he, hpq⟩
  have hgone : ∀ q, q ∈ Gone use d i (j + 1) ↔
      q ∈ Gone use d i j ∨ use q = .frame d (1024 * i + j) := by
    intro q
    constructor
    · rintro (⟨v, hv, heq⟩ | htable)
      · rcases Nat.lt_or_ge v (1024 * i + j) with hlt | hge
        · exact .inl (.inl ⟨v, hlt, heq⟩)
        · obtain rfl : v = 1024 * i + j := by omega
          exact .inr heq
      · exact .inl (.inr htable)
    · rintro ((⟨v, hv, heq⟩ | htable) | heq)
      · exact .inl ⟨v, by omega, heq⟩
      · exact .inr htable
      · exact .inl ⟨_, by omega, heq⟩
  unfold freeFrame
  rw [returns_readWord_bind (by omega), hword]
  by_cases hpresent : e.present = true
  · have hframe := (hmaps e.page).2 ⟨hpresent, rfl⟩
    have hnew : e.page ∉ Gone use d i j := by
      rintro (⟨v, hv, heq⟩ | ⟨i', -, heq⟩)
      · obtain ⟨-, rfl⟩ := PageUse.frame.inj (hframe.symm.trans heq)
        exact Nat.lt_irrefl _ hv
      · cases hframe.symm.trans heq
    have hused : R.InUse H₁ e.page :=
      (hf.used _).2 ⟨(h.used _).2 (by rw [hframe]; exact PageUse.noConfusion), hnew⟩
    rw [if_pos ((Pte.encode_and_present e).2 hpresent), returns_pteGetPage_bind hfits.page_lt]
    refine (pallocFreePage_gave hf.sized hused).mono fun _ H₂ hgave => hf.gave hgave fun q => ?_
    rw [hgone, hmaps]
    exact or_congr_right ⟨fun hpq => hpq.2.symm, fun heq => ⟨hpresent, heq.symm⟩⟩
  · rw [if_neg fun hbit => hpresent ((Pte.encode_and_present e).1 hbit)]
    refine returns_pure.2 (hf.congr fun q => ?_)
    rw [hgone, hmaps]
    exact or_iff_left fun hpq => hpresent hpq.1

/-- **One round of the outer loop.** -/
theorem freeTable_returns {H₁ : KernelHeap} (h : Accounted R init boot F H use)
    (hm : InMemory init F H.mem use) (hd : d ∈ F.dirs) (hi : i < 768)
    (hf : R.Freed H H₁ (Gone use d i 0)) :
    Returns (freeTable R d i) H₁ fun _ H₂ => R.Freed H H₂ (Gone use d (i + 1) 0) := by
  have hdpage := h.dir_isPage hd
  have hd0 := hdpage.ne_zero
  have hgone : ∀ q, q ∈ Gone use d (i + 1) 0 ↔ q ∈ Gone use d i 1024 ∨ use q = .table d i := by
    intro q
    constructor
    · rintro (⟨v, hv, heq⟩ | ⟨i', hi', heq⟩)
      · exact .inl (.inl ⟨v, by omega, heq⟩)
      · rcases Nat.lt_succ_iff_lt_or_eq.1 hi' with hlt | rfl
        · exact .inl (.inr ⟨i', hlt, heq⟩)
        · exact .inr heq
    · rintro ((⟨v, hv, heq⟩ | ⟨i', hi', heq⟩) | heq)
      · exact .inl ⟨v, by omega, heq⟩
      · exact .inr ⟨i', Nat.lt_succ_of_lt hi', heq⟩
      · exact .inr ⟨i, Nat.lt_succ_self i, heq⟩
  unfold freeTable
  rw [returns_readWord_bind (by omega), hf.word (gone_isPage h) hdpage (dir_not_gone h hd)
    (by omega)]
  by_cases htable : ∃ p, use p = .table d i
  · obtain ⟨p, hp⟩ := htable
    have hown' : TableAt init use d i p := (tableAt_of_lt hi).2 hp
    have hppage := h.table_isPage hown'
    have hpb := hppage.bounds
    rw [hm.pde d hd i (by omega) p hown', if_pos ((Pte.encode_and_present _).2 rfl),
      returns_pdeGetPt_bind hppage.aligned hpb.1 (by omega)]
    have hloop : Returns (forRounds (freeFrame R p) (pgsize / 4)) H₁ fun _ H₂ =>
        R.Freed H H₂ (Gone use d i 1024) :=
      returns_forRounds hf fun j hj H₂ hf' => freeFrame_returns h hm hd hi hp hj hf'
    refine hloop.seq fun _ H₂ hf' => ?_
    have hused : R.InUse H₂ p :=
      (hf'.used p).2 ⟨(h.used p).2 (by rw [hp]; exact PageUse.noConfusion), table_not_gone hp⟩
    refine (pallocFreePage_gave hf'.sized hused).mono fun _ H₃ hgave => hf'.gave hgave fun q => ?_
    rw [hgone]
    refine or_congr_right ⟨fun heq => h.tableOne q p d i heq hp, ?_⟩
    rintro rfl
    exact hp
  · have hnone : ∀ p, ¬TableAt init use d i p := fun p hp =>
      htable ⟨p, (tableAt_of_lt hi).1 hp⟩
    rw [hm.noPde d hd i (by omega) hnone, if_neg (by decide)]
    refine returns_pure.2 (hf.congr fun q => ?_)
    rw [hgone, or_iff_left fun heq => htable ⟨q, heq⟩]
    -- nothing is mapped in a region without a page table
    constructor
    · rintro (⟨v, hv, heq⟩ | hold)
      · rcases Nat.lt_or_ge v (1024 * i) with hlt | hge
        · exact .inl ⟨v, hlt, heq⟩
        · obtain ⟨-, -, e, he, -⟩ := (h.frame q d v).1 heq
          have hno := hm.noPte d hd i (by omega) hnone (v - 1024 * i) (by omega)
          rw [Nat.add_sub_cancel' hge, he] at hno
          cases hno
      · exact .inr hold
    · rintro (⟨v, hv, heq⟩ | hold)
      · exact .inl ⟨v, by omega, heq⟩
      · exact .inr hold

/-- The page `q` of this use is the directory `d`, or one that it takes up. -/
def PageUse.isOf (d q : ℕ) : PageUse → Bool
  | .dir => decide (q = d)
  | .table d' _ => decide (d' = d)
  | .frame d' _ => decide (d' = d)
  | _ => false

/-- The use of the page `q` when the directory `d` is gone. -/
def PageUse.without (d q : ℕ) (u : PageUse) : PageUse := if u.isOf d q then .free else u

theorem without_eq_iff {u u' : PageUse} (hu' : u' ≠ .free) :
    u.without d q = u' ↔ u = u' ∧ u'.isOf d q = false := by
  unfold PageUse.without
  split_ifs with hof
  · refine iff_of_false hu'.symm fun h => ?_
    rw [h.1, h.2] at hof
    exact Bool.false_ne_true hof
  · refine ⟨fun heq => ⟨heq, ?_⟩, fun h => h.1⟩
    rwa [heq, Bool.not_eq_true] at hof

theorem maps_remove : (F.remove d).Maps d' v q ↔ F.Maps d' v q ∧ d' ≠ d := by
  unfold Spaces.Maps Spaces.remove
  dsimp only
  by_cases hd : d' = d
  · exact iff_of_false (fun h => h.1.2 hd) fun h => h.2 hd
  · rw [if_neg hd]
    constructor
    · rintro ⟨hmem, hrest⟩
      exact ⟨⟨hmem.1, hrest⟩, hd⟩
    · rintro ⟨⟨hmem, hrest⟩, -⟩
      exact ⟨⟨hmem, hd⟩, hrest⟩

/-- The pages that a directory takes up. -/
theorem isOf_iff (h : Accounted R init boot F H use) (hd : d ∈ F.dirs) (hne : d ≠ init) :
    (use q).isOf d q = true ↔ q ∈ Gone use d 768 0 ∨ q = d := by
  constructor
  · intro hof
    cases huse : use q with
    | free => rw [huse] at hof; cases hof
    | boot => rw [huse] at hof; cases hof
    | held => rw [huse] at hof; cases hof
    | dir =>
      rw [huse] at hof
      exact .inr (of_decide_eq_true hof)
    | table d' i =>
      rw [huse] at hof
      obtain rfl : d' = d := of_decide_eq_true hof
      exact .inl (.inr ⟨i, (h.table q d' i huse).2.2.2 hne, huse⟩)
    | frame d' v =>
      rw [huse] at hof
      obtain rfl : d' = d := of_decide_eq_true hof
      obtain ⟨-, hv, -⟩ := (h.frame q d' v).1 huse
      exact .inl (.inl ⟨v, by omega, huse⟩)
  · rintro ((⟨v, -, heq⟩ | ⟨i, -, heq⟩) | rfl)
    · rw [heq]
      exact decide_eq_true rfl
    · rw [heq]
      exact decide_eq_true rfl
    · rw [(h.dir q).2 hd]
      exact decide_eq_true rfl

/-- **Without the directory, its page tables and what it maps, the accounts are right.** -/
theorem Accounted.remove {A : Set ℕ} (h : Accounted R init boot F H use) (hd : d ∈ F.dirs)
    (hne : d ≠ init) (hf : R.Freed H H' A) (hA : ∀ q, q ∈ A ↔ q ∈ Gone use d 768 0 ∨ q = d) :
    Accounted R init boot (F.remove d) H' fun q => (use q).without d q where
  sized := hf.sized
  used q := by
    rw [hf.used, h.used, hA, ← isOf_iff h hd hne]
    unfold PageUse.without
    by_cases hof : (use q).isOf d q = true <;> simp [hof]
  boot q := (without_eq_iff PageUse.noConfusion).trans ((and_iff_left rfl).trans (h.boot q))
  held q := (without_eq_iff PageUse.noConfusion).trans ((and_iff_left rfl).trans (h.held q))
  dir q := (without_eq_iff PageUse.noConfusion).trans
    (and_congr (h.dir q) decide_eq_false_iff_not)
  frame q d' v := (without_eq_iff PageUse.noConfusion).trans
    ((and_congr (h.frame q d' v) decide_eq_false_iff_not).trans maps_remove.symm)
  table q d' i heq := by
    obtain ⟨htable, hof⟩ := (without_eq_iff PageUse.noConfusion).1 heq
    obtain ⟨hd', hrest⟩ := h.table q d' i htable
    exact ⟨⟨hd', of_decide_eq_false hof⟩, hrest⟩
  tableOne q q' d' i heq heq' :=
    h.tableOne q q' d' i ((without_eq_iff PageUse.noConfusion).1 heq).1
      ((without_eq_iff PageUse.noConfusion).1 heq').1
  init := ⟨h.init, hne.symm⟩

/-- The other directories keep their page tables. -/
theorem InMemory.remove {A : Set ℕ} (h : Accounted R init boot F H use)
    (hm : InMemory init F H.mem use) (hd : d ∈ F.dirs) (hne : d ≠ init) (hf : R.Freed H H' A)
    (hA : ∀ q, q ∈ A ↔ q ∈ Gone use d 768 0 ∨ q = d) :
    InMemory init (F.remove d) H'.mem fun q => (use q).without d q := by
  have hApage : ∀ q ∈ A, R.IsPage q := fun q hq =>
    ((hA q).1 hq).elim (gone_isPage h q) fun heq => heq ▸ h.dir_isPage hd
  have howner : ∀ d' i, d' ≠ d → owner init d' i ≠ d := by
    intro d' i hd'
    unfold owner
    split_ifs
    · exact hd'
    · exact hne.symm
  refine hm.congr (fun d' hd' => hd'.1) (fun d' hd' => ?_) (fun d' hd' i q => ?_)
    (fun d' hd' k hk => ?_) fun d' hd' i q hq k hk => ?_
  · funext v
    exact if_neg hd'.2
  · exact (without_eq_iff PageUse.noConfusion).trans
      (and_iff_left (decide_eq_false (howner d' i hd'.2)))
  · refine hf.word hApage (h.dir_isPage hd'.1) (fun hmem => ?_) hk
    rw [hA, ← isOf_iff h hd hne, (h.dir d').2 hd'.1] at hmem
    exact hd'.2 (of_decide_eq_true hmem)
  · refine hf.word hApage (h.table_isPage hq) (fun hmem => ?_) hk
    rw [hA, ← isOf_iff h hd hne, show use q = _ from hq] at hmem
    exact howner d' i hd'.2 (of_decide_eq_true hmem)

/-- **`pagedir_destroy`** gives back the directory and all that it takes up. -/
theorem pagedirDestroy_returns (hr : Represents R init boot F H) (hd : d ∈ F.dirs)
    (hne : d ≠ init) : Returns (pagedirDestroy R init d) H fun _ H' =>
      Represents R init boot (F.remove d) H' ∧ (F.remove d).Kept H.mem H'.mem := by
  obtain ⟨use, h, hm⟩ := hr
  have hdir : use d = .dir := (h.dir d).2 hd
  unfold pagedirDestroy
  rw [if_neg (h.dir_isPage hd).ne_zero]
  refine returns_assert (decide_eq_true hne) ?_
  have hstart : R.Freed H H (Gone use d 0 0) := by
    have hempty : ∀ q, q ∉ Gone use d 0 0 := by
      rintro q (⟨v, hv, -⟩ | ⟨i, hi, -⟩)
      · exact Nat.not_lt_zero v hv
      · exact Nat.not_lt_zero i hi
    exact ⟨h.sized, fun q => (and_iff_left (hempty q)).symm, fun a _ => rfl⟩
  have hloop : Returns (forRounds (freeTable R d) (pdNo physBase)) H fun _ H₂ =>
      R.Freed H H₂ (Gone use d 768 0) :=
    returns_forRounds hstart fun i hi H₂ hf => freeTable_returns h hm hd hi hf
  refine hloop.seq fun _ H₂ hf => ?_
  have hused : R.InUse H₂ d :=
    (hf.used d).2 ⟨(h.used d).2 (by rw [hdir]; exact PageUse.noConfusion), dir_not_gone h hd⟩
  refine (pallocFreePage_gave hf.sized hused).mono fun _ H₃ hgave => ?_
  have hall : R.Freed H H₃ (insert d (Gone use d 768 0)) :=
    hf.gave hgave fun q => or_comm
  have hA : ∀ q, q ∈ insert d (Gone use d 768 0) ↔ q ∈ Gone use d 768 0 ∨ q = d :=
    fun q => or_comm
  have h' := h.remove hd hne hall hA
  refine ⟨⟨_, h', hm.remove h hd hne hall hA⟩, fun q hq i hi => ?_⟩
  -- the pages that the callers have are none of those given back
  have hqpage := h'.has_isPage hq
  have hnot : q ∉ insert d (Gone use d 768 0) := fun hmem =>
    ((hall.used q).1 ((h'.used q).2 (h'.has_ne_free hq))).2 hmem
  refine hall.mem _ fun p hp => ?_
  have hppage : R.IsPage p :=
    ((hA p).1 hp).elim (gone_isPage h p) fun heq => heq ▸ h.dir_isPage hd
  have hapart := hqpage.apart hppage fun heq => hnot (heq ▸ hp)
  omega

end Paging
end CS162
