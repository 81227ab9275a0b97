/-
# What the calls do to the address spaces

`lookup_page` that creates adds the page table of a region, whose entries are all 0; the other
calls change one entry, or add a directory that shares the kernel's regions.  Each keeps that the
heap represents the maps.
-/

import CS162.Paging.Spaces

namespace CS162
namespace Paging

open Basis Threads

/-! ### Changes of the maps -/

section
open Classical

/-- One entry: of every directory, if it is for the kernel's addresses. -/
noncomputable def Spaces.set (F : Spaces) (d v : ℕ) (e : Pte) : Spaces :=
  { F with entry := fun d' v' =>
      if v' = v ∧ d' ∈ F.dirs ∧ (d' = d ∨ 768 ≤ v / 1024) then some e else F.entry d' v' }

/-- The region of `v` has entries. -/
noncomputable def Spaces.grow (F : Spaces) (d v : ℕ) : Spaces :=
  { F with entry := fun d' v' =>
      if F.entry d' v' = none ∧ d' = d ∧ v' / 1024 = v / 1024 then some { frame := 0 }
      else F.entry d' v' }

/-- A directory for the kernel's addresses. -/
noncomputable def Spaces.addDir (F : Spaces) (init r : ℕ) : Spaces :=
  { F with
    dirs := insert r F.dirs
    entry := fun d v => if d = r then (if v / 1024 < 768 then none else F.entry init v)
      else F.entry d v }

/-- A directory less. -/
noncomputable def Spaces.remove (F : Spaces) (r : ℕ) : Spaces :=
  { F with
    dirs := F.dirs \ {r}
    entry := fun d v => if d = r then none else F.entry d v }

end

variable {R : Ram} {init : ℕ} {boot : Set ℕ} {F F' : Spaces} {H H' : KernelHeap}
  {use use' : ℕ → PageUse} {m m' : Memory} {d d' i i' j k p q v v' va : ℕ} {e : Pte}

theorem owner_eq_iff : owner init d' i = owner init d i ↔ d' = d ∨ 768 ≤ i := by
  unfold owner
  split_ifs with hi
  · exact ⟨.inl, fun h => h.resolve_right (Nat.not_le.2 hi)⟩
  · exact iff_of_true rfl (.inr (Nat.not_lt.1 hi))

/-- What is mapped once one entry is set. -/
theorem maps_set (hd : d ∈ F.dirs) : (F.set d v e).Maps d' v' q ↔
    if d' = d ∧ v' = v then v / 1024 < 768 ∧ e.present = true ∧ e.page = q
    else F.Maps d' v' q := by
  unfold Spaces.Maps Spaces.set
  dsimp only
  by_cases hsame : d' = d ∧ v' = v
  · have hcond : v' = v ∧ d' ∈ F.dirs ∧ (d' = d ∨ 768 ≤ v / 1024) :=
      ⟨hsame.2, hsame.1 ▸ hd, .inl hsame.1⟩
    rw [if_pos hsame, if_pos hcond]
    obtain ⟨rfl, rfl⟩ := hsame
    constructor
    · rintro ⟨-, hv, e', he', hpresent, hpage⟩
      rw [Option.some.inj he']
      exact ⟨hv, hpresent, hpage⟩
    · rintro ⟨hv, hpresent, hpage⟩
      exact ⟨hd, hv, e, rfl, hpresent, hpage⟩
  · rw [if_neg hsame]
    constructor
    · rintro ⟨hd', hv', e', he', hrest⟩
      rw [if_neg] at he'
      · exact ⟨hd', hv', e', he', hrest⟩
      · rintro ⟨rfl, -, hor⟩
        exact hsame ⟨hor.resolve_right (Nat.not_le.2 hv'), rfl⟩
    · rintro ⟨hd', hv', e', he', hrest⟩
      refine ⟨hd', hv', e', ?_, hrest⟩
      rw [if_neg]
      · exact he'
      · rintro ⟨rfl, -, hor⟩
        exact hsame ⟨hor.resolve_right (Nat.not_le.2 hv'), rfl⟩

/-- **One word of a page table is one entry.** -/
theorem InMemory.set (h : Accounted R init boot F H use) (hm : InMemory init F m use)
    (hp : TableAt init use d (v / 1024) p) (he : e.Fits) :
    InMemory init (F.set d v e) (setFieldAt m (p + 4 * (v % 1024)) 0 e.encode) use := by
  have hj : v % 1024 < 1024 := Nat.mod_lt v (by omega)
  have hppage := h.table_isPage hp
  have hwordDir : ∀ d' ∈ F.dirs, ∀ k < 1024,
      word (setFieldAt m (p + 4 * (v % 1024)) 0 e.encode) (d' + 4 * k) = word m (d' + 4 * k) :=
    fun d' hd' k hk =>
      word_set hppage (h.dir_isPage hd') (.inl (h.table_ne_dir hp hd').symm) hj hk _
  constructor
  · intro d' hd' i hi q hq
    rw [hwordDir d' hd' i hi]
    exact hm.pde d' hd' i hi q hq
  · intro d' hd' i hi hno
    rw [hwordDir d' hd' i hi]
    exact hm.noPde d' hd' i hi hno
  · intro d' hd' i q hq j hjlt
    by_cases hsame : 1024 * i + j = v ∧ (d' = d ∨ 768 ≤ v / 1024)
    · obtain ⟨hv, hshared⟩ := hsame
      have hi : i = v / 1024 := by omega
      have hjv : j = v % 1024 := by omega
      have hown : TableAt init use d' (v / 1024) p := by
        unfold TableAt
        rw [owner_eq_iff.2 hshared]
        exact hp
      rw [hi] at hq
      have hqp : q = p := h.table_unique hq hown
      refine ⟨e, if_pos ⟨hv, hd', hshared⟩, he, ?_⟩
      rw [hqp, hjv]
      exact fieldAt_set_self (Pte.encode_lt he.frame_lt)
    · obtain ⟨e', he', hfits, hword⟩ := hm.pte d' hd' i q hq j hjlt
      refine ⟨e', (if_neg fun hcond => hsame ⟨hcond.1, hcond.2.2⟩).trans he', hfits, ?_⟩
      rw [word_set hppage (h.table_isPage hq) ?_ hj hjlt, hword]
      by_contra hboth
      rw [not_or, not_not, not_not] at hboth
      obtain ⟨hqp, hjv⟩ := hboth
      rw [hqp] at hq
      obtain ⟨hi, hown⟩ := hq.inj hp
      rw [hi] at hown
      exact hsame ⟨by omega, owner_eq_iff.1 hown⟩
  · intro d' hd' i hi hno j hjlt
    refine (if_neg ?_).trans (hm.noPte d' hd' i hi hno j hjlt)
    rintro ⟨hv, -, hshared⟩
    have hiv : i = v / 1024 := by omega
    refine hno p ?_
    unfold TableAt
    rw [hiv, owner_eq_iff.2 hshared]
    exact hp

/-! ### A page table more -/

theorem maps_grow : (F.grow d v).Maps d' v' q ↔ F.Maps d' v' q := by
  unfold Spaces.Maps Spaces.grow
  dsimp only
  constructor
  · rintro ⟨hd', hv', e, he, hpresent, hpage⟩
    split_ifs at he with hnew
    · rw [← Option.some.inj he] at hpresent
      exact absurd hpresent Bool.false_ne_true
    · exact ⟨hd', hv', e, he, hpresent, hpage⟩
  · rintro ⟨hd', hv', e, he, hrest⟩
    refine ⟨hd', hv', e, ?_, hrest⟩
    rw [if_neg]
    · exact he
    · rintro ⟨hnone, -⟩
      rw [hnone] at he
      cases he

/-- The new page table's own directory has it, and no other. -/
theorem tableAt_update :
    TableAt init (Function.update use p (.table d i)) d' i' q ↔
      if q = p then i' = i ∧ owner init d' i = d else TableAt init use d' i' q := by
  unfold TableAt
  rw [Function.update_apply]
  split_ifs with hq
  · constructor
    · intro heq
      obtain ⟨hd, rfl⟩ := PageUse.table.inj heq
      exact ⟨rfl, hd.symm⟩
    · rintro ⟨rfl, hd⟩
      rw [hd]
  · exact Iff.rfl

/-- **A zeroed page becomes the page table of a region that has none.** -/
theorem InMemory.addTable (h : Accounted R init boot F H use) (hm : InMemory init F H.mem use)
    (hgot : R.Got H H' p) (hzero : ∀ a < 4096, H'.mem (p + a) = 0) (hd : d ∈ F.dirs)
    (hi : v / 1024 < 1024) (hown : owner init d (v / 1024) = d)
    (honly : ∀ d' ∈ F.dirs, owner init d' (v / 1024) = d → d' = d)
    (hnone : ∀ q, ¬TableAt init use d (v / 1024) q) :
    InMemory init (F.grow d v) (setFieldAt H'.mem (d + 4 * (v / 1024)) 0 (tablePde p).encode)
      (Function.update use p (.table d (v / 1024))) := by
  have hfree : use p = .free := by
    by_contra hused
    exact hgot.fresh ((h.used p).2 hused)
  have hdpage := h.dir_isPage hd
  have hdir_ne : ∀ d' ∈ F.dirs, d' ≠ p := by
    rintro d' hd' rfl
    rw [(h.dir d').2 hd'] at hfree
    cases hfree
  have htable_ne : ∀ d' i' q, TableAt init use d' i' q → q ≠ p := by
    rintro d' i' q hq rfl
    have heq : PageUse.table (owner init d' i') i' = .free := hq.symm.trans hfree
    cases heq
  have hupdate : ∀ d' i' q, TableAt init (Function.update use p (.table d (v / 1024))) d' i' q ↔
      if q = p then i' = v / 1024 ∧ owner init d' (v / 1024) = d else TableAt init use d' i' q :=
    fun d' i' q => tableAt_update
  -- the words of the directories but one, and of the page tables, are as they were
  have hwordDir : ∀ d' ∈ F.dirs, ∀ k < 1024, d' ≠ d ∨ k ≠ v / 1024 →
      word (setFieldAt H'.mem (d + 4 * (v / 1024)) 0 (tablePde p).encode) (d' + 4 * k) =
        word H.mem (d' + 4 * k) := by
    intro d' hd' k hk hne
    rw [word_set hdpage (h.dir_isPage hd') hne hi hk,
      word_sameBut hgot.mem hgot.page (h.dir_isPage hd') (hdir_ne d' hd') hk]
  have hother : ∀ d' ∈ F.dirs, ∀ i', (¬TableAt init (Function.update use p
      (.table d (v / 1024))) d' i' p) → d' ≠ d ∨ i' ≠ v / 1024 := by
    intro d' hd' i' hno
    by_contra hboth
    rw [not_or, not_not, not_not] at hboth
    refine hno ((hupdate d' i' p).2 ?_)
    rw [if_pos rfl, hboth.1]
    exact ⟨hboth.2, hown⟩
  have hold : ∀ d' i' q, TableAt init use d' i' q →
      TableAt init (Function.update use p (.table d (v / 1024))) d' i' q := by
    intro d' i' q hq
    rw [hupdate, if_neg (htable_ne d' i' q hq)]
    exact hq
  have hgrow : ∀ d' v', ¬(d' = d ∧ v' / 1024 = v / 1024) →
      (F.grow d v).entry d' v' = F.entry d' v' := fun d' v' hne => if_neg fun h => hne h.2
  constructor
  · intro d' hd' i' hi' q hq
    rw [hupdate] at hq
    split_ifs at hq with hqp
    · obtain ⟨rfl, hd'd⟩ := hq
      rw [honly d' hd' hd'd, hqp]
      exact fieldAt_set_self (Pte.encode_lt (hgot.page.fits rfl).frame_lt)
    · rw [hwordDir d' hd' i' hi']
      · exact hm.pde d' hd' i' hi' q hq
      · by_contra hboth
        rw [not_or, not_not, not_not] at hboth
        rw [hboth.1, hboth.2] at hq
        exact hnone q hq
  · intro d' hd' i' hi' hno
    rw [hwordDir d' hd' i' hi' (hother d' hd' i' (hno p))]
    exact hm.noPde d' hd' i' hi' fun q hq => hno q (hold d' i' q hq)
  · intro d' hd' i' q hq j hj
    rw [hupdate] at hq
    split_ifs at hq with hqp
    · obtain ⟨rfl, hd'd⟩ := hq
      obtain rfl := honly d' hd' hd'd
      refine ⟨{ frame := 0 }, if_pos ⟨hm.noPte d' hd' _ hi hnone j hj, rfl, by omega⟩,
        (by decide : 0 < 2 ^ 18), ?_⟩
      rw [hqp, word_set hdpage hgot.page (.inl (hdir_ne d' hd').symm) hi hj,
        word_zero hzero hj]
      rfl
    · obtain ⟨e, he, hfits, hword⟩ := hm.pte d' hd' i' q hq j hj
      refine ⟨e, ?_, hfits, ?_⟩
      · refine (if_neg ?_).trans he
        rintro ⟨hn, -⟩
        rw [hn] at he
        cases he
      · have hqpage := h.table_isPage hq
        rw [word_set hdpage hqpage (.inl (h.table_ne_dir hq hd)) hi hj,
          word_sameBut hgot.mem hgot.page hqpage hqp hj, hword]
  · intro d' hd' i' hi' hno j hj
    rw [hgrow]
    · exact hm.noPte d' hd' i' hi' (fun q hq => hno q (hold d' i' q hq)) j hj
    · rintro ⟨rfl, hv'⟩
      have hi'v : i' = v / 1024 := by omega
      rcases hother d' hd' i' (hno p) with hne | hne
      · exact hne rfl
      · exact hne hi'v

theorem kept_grow : (F.grow d v).Kept m m' ↔ F.Kept m m' := by
  have hhas : ∀ p, (F.grow d v).Has p ↔ F.Has p := fun p =>
    or_congr Iff.rfl (exists_congr fun d' => exists_congr fun v' => maps_grow)
  unfold Spaces.Kept
  simp only [hhas]

theorem Accounted.free_of_fresh (h : Accounted R init boot F H use) (hp : ¬R.InUse H p) :
    use p = .free := by
  by_contra hused
  exact hp ((h.used p).2 hused)

theorem Ram.Got.used_ite {u : PageUse} (hgot : R.Got H H' p) (hu : u ≠ .free) (q : ℕ) :
    R.InUse H' q ↔ if q = p then u ≠ .free else R.InUse H q := by
  refine (hgot.used q).trans ?_
  split_ifs with hq
  · exact iff_of_true (.inr hq) hu
  · exact or_iff_left hq

/-- A page that was got becomes a table of the directory. -/
theorem Accounted.addTable (h : Accounted R init boot F H use) (hgot : R.Got H H' p)
    (hd : d ∈ F.dirs) (hi : v / 1024 < 1024) (hshared : v / 1024 < 768 ↔ d ≠ init)
    (hnone : ∀ q, use q ≠ .table d (v / 1024)) (x : ℕ) :
    Accounted R init boot (F.grow d v)
      { H' with mem := setFieldAt H'.mem (d + 4 * (v / 1024)) 0 x }
      (Function.update use p (.table d (v / 1024))) := by
  have hfree := h.free_of_fresh hgot.fresh
  have hnot : ∀ u : PageUse, u ≠ .free → use p ≠ u := fun u hu heq => hu (heq.symm.trans hfree)
  refine h.relabel hgot.sized ?_ ⟨hnot _ PageUse.noConfusion, hnot _ PageUse.noConfusion⟩
    PageUse.noConfusion ?_ ?_ ?_ ?_
  · exact hgot.used_ite PageUse.noConfusion
  · exact iff_of_other h.held (hnot _ PageUse.noConfusion) PageUse.noConfusion
  · exact iff_of_other h.dir (hnot _ PageUse.noConfusion) PageUse.noConfusion
  · intro q d' v'
    rw [maps_grow]
    exact iff_of_other (fun q => h.frame q d' v') (hnot _ PageUse.noConfusion)
      PageUse.noConfusion q
  · intro d' i' heq
    obtain ⟨rfl, rfl⟩ := PageUse.table.inj heq
    exact ⟨hd, hi, hshared, hnone⟩

theorem Accounted.fresh_not_has (h : Accounted R init boot F H use) (hp : ¬R.InUse H p) :
    ¬F.Has p :=
  h.not_has (fun heq => by cases (h.free_of_fresh hp).symm.trans heq)
    fun _ _ heq => by cases (h.free_of_fresh hp).symm.trans heq

/-- A region that has entries stays as it is. -/
theorem grow_of_some {e : Pte} (hm : InMemory init F m use) (hd : d ∈ F.dirs)
    (hi : v / 1024 < 1024) (he : F.entry d v = some e) : F.grow d v = F := by
  have htable : ∃ p, TableAt init use d (v / 1024) p := by
    by_contra hnone
    have hno := hm.noPte d hd _ hi (fun p hp => hnone ⟨p, hp⟩) (v % 1024) (Nat.mod_lt _ (by omega))
    rw [region_add, he] at hno
    cases hno
  obtain ⟨p, hp⟩ := htable
  unfold Spaces.grow
  congr 1
  funext d' v'
  refine if_neg ?_
  rintro ⟨hnone, rfl, hv⟩
  obtain ⟨e', he', -⟩ := hm.pte d' hd _ p hp (v' % 1024) (Nat.mod_lt _ (by omega))
  rw [← hv, region_add, hnone] at he'
  cases he'

/-- **`lookup_page` that creates**: it fails where there is no page for a page table. -/
theorem lookupPage_creates (h : Accounted R init boot F H use) (hm : InMemory init F H.mem use)
    (hd : d ∈ F.dirs) (hne : d ≠ init) (hva : va < physBase) :
    Returns (lookupPage R d va true) H fun a H' =>
      (a = 0 ∧ H' = H ∧ F.entry d (va / 4096) = none ∧ R.Full H false) ∨
      ¬(F.entry d (va / 4096) = none ∧ R.Full H false) ∧ ∃ use',
        Accounted R init boot (F.grow d (va / 4096)) H' use' ∧
        InMemory init (F.grow d (va / 4096)) H'.mem use' ∧ F.Kept H.mem H'.mem ∧
        Found init (F.grow d (va / 4096)) use' H'.mem d (va / 4096) a ∧ a ≠ 0 := by
  have hva32 : va < 2 ^ 32 := hva.trans (by decide)
  have hregion : va / 4096 / 1024 < 768 := by
    unfold physBase at hva
    omega
  have hdne := (h.dir_isPage hd).ne_zero
  have hmod : va / 4096 % 1024 < 1024 := Nat.mod_lt _ (by omega)
  by_cases htable : ∃ p, TableAt init use d (va / 4096 / 1024) p
  · obtain ⟨p, hp⟩ := htable
    obtain ⟨e, he, -⟩ := hm.pte d hd _ p hp _ hmod
    rw [region_add] at he
    rw [grow_of_some hm hd (by omega) he]
    refine (lookupPage_table h hm hd hva32 (fun _ => hva) hp).mono ?_
    rintro a _ ⟨rfl, ha, hfound⟩
    refine .inr ⟨fun hnone => ?_, use, h, hm, .refl F _, hfound, ha⟩
    rw [he] at hnone
    cases hnone.1
  · have hnone := fun p hp => htable ⟨p, hp⟩
    have hown : owner init d (va / 4096 / 1024) = d := if_pos hregion
    have he := hm.noPte d hd _ (by omega) hnone _ hmod
    rw [region_add] at he
    unfold lookupPage
    refine returns_assert (decide_eq_true hdne) ?_
    rw [returns_assert_bind]
    refine ⟨decide_eq_true hva, ?_⟩
    rw [returns_readWord_bind (by omega), pdNo_eq, hm.noPde d hd _ (by omega) hnone, if_pos rfl,
      if_pos rfl]
    refine (pallocGetPage_got h.sized true false).seq ?_
    rintro a H₁ (⟨rfl, rfl, hfull⟩ | ⟨hgot, hzero, k, hk, hak⟩)
    · rw [if_pos rfl]
      exact returns_pure.2 (.inl ⟨rfl, rfl, he, hfull⟩)
    · have hpage := hgot.page
      have hnotab : ∀ q, use q ≠ .table d (va / 4096 / 1024) := fun q hq =>
        hnone q ((tableAt_of_lt hregion).2 hq)
      have h' := h.addTable hgot hd (by omega) (iff_of_true hregion hne) hnotab (tablePde a).encode
      have hm' := hm.addTable h hgot (hzero rfl) hd (by omega) hown
        (fun d' _ hd' => (if_pos hregion).symm.trans hd') hnone
      have hp' : TableAt init (Function.update use a (.table d (va / 4096 / 1024))) d
          (va / 4096 / 1024) a := tableAt_update.2 (by rw [if_pos rfl]; exact ⟨rfl, hown⟩)
      rw [if_neg hpage.ne_zero, returns_pdeCreate_bind hpage.aligned hpage.bounds.1,
        returns_writeWord_bind (by omega)]
      obtain ⟨e, he', hfits, hword⟩ := hm'.pte d hd _ a hp' _ hmod
      rw [region_add] at he'
      have ha := hpage.ne_zero
      have hkept : F.Kept H.mem (setFieldAt H₁.mem (d + 4 * (va / 4096 / 1024)) 0
          (tablePde a).encode) :=
        (h.kept hpage (h.fresh_not_has hgot.fresh) hgot.mem).trans
          (h.kept (h.dir_isPage hd) (h.dir_not_has hd) (set_sameBut (by omega) _))
      refine pageEntry_returns h' hm' hd hva32 hp' (.inr ⟨fun hboth => ?_, _, h', hm', hkept,
        .inr ⟨a, e, hp', rfl, by omega, he', hfits, hword⟩, by omega⟩)
      exact hgot.fresh (hak ▸ hboth.2 k hk)

/-! ### Changes of one page's use -/

/-- A page that neither was nor is a page table. -/
theorem InMemory.relabel {u : PageUse} (hm : InMemory init F m use) (held : Set ℕ)
    (hold : ∀ d i, use p ≠ .table d i) (hnew : ∀ d i, u ≠ .table d i) :
    InMemory init { F with held := held } m (Function.update use p u) := by
  refine hm.congr (fun _ hd => hd) (fun _ _ => rfl) (fun d _ i q => ?_) (fun _ _ _ _ => rfl)
    fun _ _ _ _ _ _ _ => rfl
  unfold TableAt
  rw [Function.update_apply]
  split_ifs with hq
  · rw [hq]
    exact iff_of_false (hnew _ _) (hold _ _)
  · exact Iff.rfl

/-- **A page that was held is mapped.** -/
theorem Accounted.map (h : Accounted R init boot F H use) (hd : d ∈ F.dirs)
    (hv : v / 1024 < 768) (hp : p ∈ F.held) (he : e.present = true ∧ e.page = p)
    (hnot : ∀ q, ¬F.Maps d v q) (hused : ∀ q, R.InUse H' q ↔ R.InUse H q) (hsized : R.Sized H') :
    Accounted R init boot { F.set d v e with held := F.held \ {p} } H'
      (Function.update use p (.frame d v)) := by
  have hheld : use p = .held := (h.held p).2 hp
  have hother : ∀ u : PageUse, u ≠ .held → use p ≠ u := fun u hu heq => hu (heq.symm.trans hheld)
  refine h.relabel hsized ?_ ⟨hother _ PageUse.noConfusion, hother _ PageUse.noConfusion⟩
    PageUse.noConfusion ?_ ?_ ?_ (fun d i heq => by cases heq)
  · intro q
    rw [hused]
    split_ifs with hq
    · rw [hq]
      exact iff_of_true ((h.used p).2 (hother _ PageUse.noConfusion)) PageUse.noConfusion
    · exact Iff.rfl
  · intro q
    split_ifs with hq
    · exact iff_of_false (fun hmem => hmem.2 hq) id
    · exact ⟨fun hmem => hmem.1, fun hmem => ⟨hmem, hq⟩⟩
  · exact iff_of_other h.dir (hother _ PageUse.noConfusion) PageUse.noConfusion
  · intro q d' v'
    refine (maps_set hd).trans ?_
    by_cases hsame : d' = d ∧ v' = v
    · obtain ⟨rfl, rfl⟩ := hsame
      rw [if_pos ⟨rfl, rfl⟩]
      split_ifs with hq
      · exact iff_of_true ⟨hv, he.1, he.2.trans hq.symm⟩ rfl
      · exact iff_of_false (fun hpage => hq (hpage.2.2.symm.trans he.2)) (hnot q)
    · rw [if_neg hsame]
      split_ifs with hq
      · rw [hq]
        refine iff_of_false (fun hmaps => ?_) fun heq => ?_
        · exact hother (.frame d' v') PageUse.noConfusion ((h.frame p d' v').2 hmaps)
        · obtain ⟨rfl, rfl⟩ := PageUse.frame.inj heq
          exact hsame ⟨rfl, rfl⟩
      · exact Iff.rfl

/-- **A page that was mapped is held.** -/
theorem Accounted.unmap {e' : Pte} (h : Accounted R init boot F H use) (hmaps : F.Maps d v p)
    (he' : e'.present = false) (hused : ∀ q, R.InUse H' q ↔ R.InUse H q) (hsized : R.Sized H') :
    Accounted R init boot { F.set d v e' with held := insert p F.held } H'
      (Function.update use p .held) := by
  have hframe : use p = .frame d v := (h.frame p d v).2 hmaps
  have hother : ∀ u : PageUse, u ≠ .frame d v → use p ≠ u :=
    fun u hu heq => hu (heq.symm.trans hframe)
  refine h.relabel hsized ?_ ⟨hother _ PageUse.noConfusion, hother _ PageUse.noConfusion⟩
    PageUse.noConfusion ?_ ?_ ?_ (fun d i heq => by cases heq)
  · intro q
    rw [hused]
    split_ifs with hq
    · rw [hq]
      exact iff_of_true ((h.used p).2 (hother _ PageUse.noConfusion)) PageUse.noConfusion
    · exact Iff.rfl
  · intro q
    split_ifs with hq
    · exact iff_of_true (.inl hq) rfl
    · exact ⟨fun hmem => hmem.resolve_left hq, .inr⟩
  · exact iff_of_other h.dir (hother _ PageUse.noConfusion) PageUse.noConfusion
  · intro q d' v'
    refine (maps_set hmaps.1).trans ?_
    by_cases hsame : d' = d ∧ v' = v
    · rw [if_pos hsame, he']
      refine iff_of_false (fun hpage => Bool.false_ne_true hpage.2.1) ?_
      split_ifs with hq
      · exact id
      · intro hmaps'
        rw [hsame.1, hsame.2] at hmaps'
        obtain ⟨-, -, e₁, he₁, -, hpage₁⟩ := hmaps
        obtain ⟨-, -, e₂, he₂, -, hpage₂⟩ := hmaps'
        rw [he₁] at he₂
        rw [← Option.some.inj he₂] at hpage₂
        exact hq (hpage₂.symm.trans hpage₁)
    · rw [if_neg hsame]
      split_ifs with hq
      · rw [hq]
        refine iff_of_false (fun hmaps' => ?_) id
        have heq := hframe.symm.trans ((h.frame p d' v').2 hmaps')
        obtain ⟨rfl, rfl⟩ := PageUse.frame.inj heq
        exact hsame ⟨rfl, rfl⟩
      · exact Iff.rfl

/-! ### The calls -/

/-- The word that is found is not that of a page. -/
theorem Found.some {a : ℕ} (h : Found init F use m d v a) (ha : a ≠ 0) :
    ∃ p e, TableAt init use d (v / 1024) p ∧ a = p + 4 * (v % 1024) ∧ F.entry d v = some e ∧
      e.Fits ∧ word m a = e.encode := by
  rcases h with ⟨h0, -⟩ | ⟨p, e, hp, hap, -, he, hfits, hword⟩
  · exact absurd h0 ha
  · exact ⟨p, e, hp, hap, he, hfits, hword⟩

/-- **`pagedir_set_page`** fails where there is no page for a page table that is needed. -/
theorem pagedirSetPage_returns {upage kpage : ℕ} {writable : Bool}
    (hr : Represents R init boot F H) (hd : d ∈ F.dirs) (hne : d ≠ init)
    (hup : upage % 4096 = 0) (huser : upage < physBase) (hk : kpage ∈ F.held)
    (hnot : ∀ q, ¬F.Maps d (upage / 4096) q) :
    Returns (pagedirSetPage R init d upage kpage writable) H fun ok H' =>
      (ok = false ∧ H' = H ∧ F.entry d (upage / 4096) = none ∧ R.Full H false) ∨
      ok = true ∧ ¬(F.entry d (upage / 4096) = none ∧ R.Full H false) ∧
        Represents R init boot { (F.grow d (upage / 4096)).set d (upage / 4096)
          (userPte kpage writable) with held := F.held \ {kpage} } H' ∧
        F.Kept H.mem H'.mem := by
  obtain ⟨use, h, hm⟩ := hr
  have hkuse : use kpage = .held := (h.held kpage).2 hk
  have hkpage : R.IsPage kpage := h.isPage (by rw [hkuse]; exact PageUse.noConfusion)
  have hkb := hkpage.bounds
  have hram : (kpage - physBase) >>> 12 < R.ramPages := by
    rw [Nat.shiftRight_eq_div_pow]
    omega
  unfold pagedirSetPage
  refine returns_assert (decide_eq_true hup) ?_
  rw [returns_assert_bind]
  refine ⟨decide_eq_true hkpage.aligned, ?_⟩
  refine returns_assert (decide_eq_true huser) ?_
  rw [returns_vtop_bind hkb.1]
  refine returns_assert (decide_eq_true hram) ?_
  refine returns_assert (decide_eq_true hne) ?_
  refine (lookupPage_creates h hm hd hne huser).seq ?_
  rintro a H₁ (⟨rfl, rfl, hnone, hfull⟩ | ⟨hroom, use', h', hm', hkept, hfound, ha⟩)
  · rw [if_neg (not_not_intro rfl)]
    exact returns_pure.2 (.inl ⟨rfl, rfl, hnone, hfull⟩)
  · obtain ⟨p, e, hp, hap, he, hfits, hword⟩ := hfound.some ha
    have hregion : upage / 4096 / 1024 < 768 := by
      unfold physBase at huser
      omega
    have hmapsG : ∀ q, ¬(F.grow d (upage / 4096)).Maps d (upage / 4096) q := fun q hq =>
      hnot q (maps_grow.1 hq)
    have habsent : e.encode &&& pteP = 0 := by
      by_contra hpresent
      exact hmapsG e.page ⟨hd, hregion, e, he, (Pte.encode_and_present e).1 hpresent, rfl⟩
    rw [if_pos ha, returns_readWord_bind ha, hword]
    refine returns_assert (decide_eq_true habsent) ?_
    rw [returns_pteCreateUser_bind hkpage.aligned hkb.1, returns_writeWord_bind ha]
    have hkuse' : use' kpage = .held := (h'.held kpage).2 hk
    have hnotable : ∀ d i, use' kpage ≠ .table d i := fun d i heq => by
      rw [hkuse'] at heq
      cases heq
    have hpage : (userPte kpage writable).page = kpage :=
      page_of_frameOf hkpage.aligned hkb.1 rfl
    have hset := hm'.set h' hp (hkpage.fits rfl : (userPte kpage writable).Fits)
    rw [← hap] at hset
    exact returns_pure.2 (.inr ⟨rfl, hroom, ⟨_,
      h'.map hd hregion hk ⟨rfl, hpage⟩ hmapsG (fun q => Iff.rfl) h'.sized,
      hset.relabel _ hnotable fun d i heq => by cases heq⟩,
      hkept.trans (kept_grow.1 (h'.kept_entry hp hap _))⟩)

/-- What `pagedir_get_page` is for. -/
def Spaces.lookup (F : Spaces) (d va : ℕ) : ℕ :=
  match F.entry d (va / 4096) with
  | some e => if e.present then e.page + va % 4096 else 0
  | none => 0

/-- **`pagedir_get_page`** says where an address leads. -/
theorem pagedirGetPage_returns (hr : Represents R init boot F H) (hd : d ∈ F.dirs)
    (hva : va < physBase) : Returns (pagedirGetPage R d va) H fun a H' =>
      H' = H ∧ a = F.lookup d va := by
  obtain ⟨use, h, hm⟩ := hr
  unfold pagedirGetPage Spaces.lookup
  refine returns_assert (decide_eq_true hva) ?_
  refine (lookupPage_found h hm hd (hva.trans (by decide))).seq ?_
  rintro a _ ⟨rfl, hfound⟩
  rcases hfound with ⟨rfl, hnone⟩ | ⟨p, e, hp, -, ha, he, hfits, hword⟩
  · rw [if_neg (not_not_intro rfl), hnone]
    exact returns_pure.2 ⟨rfl, rfl⟩
  · rw [if_pos ha, returns_readWord_bind ha, hword, he]
    by_cases hpresent : e.present = true
    · rw [if_pos ((Pte.encode_and_present e).2 hpresent), returns_pteGetPage_bind hfits.page_lt]
      exact returns_pure.2 ⟨rfl, (if_pos hpresent).symm⟩
    · rw [if_neg fun hbit => hpresent ((Pte.encode_and_present e).1 hbit)]
      exact returns_pure.2 ⟨rfl, (if_neg hpresent).symm⟩

/-- What `pagedir_clear_page` is for. -/
noncomputable def Spaces.clear (F : Spaces) (d v : ℕ) : Spaces :=
  match F.entry d v with
  | some e =>
    if e.present then
      { F.set d v { e with present := false } with held := insert e.page F.held }
    else F
  | none => F

/-- **`pagedir_clear_page`** gives back the page that was mapped. -/
theorem pagedirClearPage_returns {upage : ℕ} (hr : Represents R init boot F H)
    (hd : d ∈ F.dirs) (hup : upage % 4096 = 0) (huser : upage < physBase) :
    Returns (pagedirClearPage R d upage) H fun _ H' =>
      Represents R init boot (F.clear d (upage / 4096)) H' ∧ F.Kept H.mem H'.mem := by
  obtain ⟨use, h, hm⟩ := hr
  unfold pagedirClearPage Spaces.clear
  refine returns_assert (decide_eq_true hup) ?_
  rw [returns_assert_bind]
  refine ⟨decide_eq_true huser, ?_⟩
  refine (lookupPage_found h hm hd (huser.trans (by decide))).seq ?_
  rintro a H₁ ⟨rfl, hfound⟩
  rcases hfound with ⟨rfl, hnone⟩ | ⟨p, e, hp, hap, ha, he, hfits, hword⟩
  · rw [if_neg (not_not_intro rfl), hnone]
    exact returns_pure.2 ⟨⟨use, h, hm⟩, .refl F _⟩
  · rw [if_pos ha, returns_readWord_bind ha, hword, he]
    by_cases hpresent : e.present = true
    · have hregion : upage / 4096 / 1024 < 768 := by
        unfold physBase at huser
        omega
      have hmaps : F.Maps d (upage / 4096) e.page := ⟨hd, hregion, e, he, hpresent, rfl⟩
      have hframe := (h.frame _ _ _).2 hmaps
      have hset := hm.set h hp (hfits : { e with present := false }.Fits)
      rw [← hap] at hset
      rw [if_pos ((Pte.encode_and_present e).2 hpresent), returns_writeWord ha,
        Pte.encode_clear_present hfits.frame_lt]
      dsimp only
      rw [if_pos hpresent]
      exact ⟨⟨_, h.unmap hmaps rfl (fun q => Iff.rfl) h.sized,
        hset.relabel _ (fun d i heq => by rw [hframe] at heq; cases heq) fun d i heq => by cases heq⟩,
        h.kept_entry hp hap _⟩
    · rw [if_neg fun hbit => hpresent ((Pte.encode_and_present e).1 hbit)]
      dsimp only
      rw [if_neg hpresent]
      exact returns_pure.2 ⟨⟨use, h, hm⟩, .refl F _⟩

/-! ### Flags -/

/-- What a flag's functions are for: `get` is the flag, `put` an entry with another value of it. -/
structure IsFlag (flag : ℕ) (get : Pte → Bool) (put : Pte → Bool → Pte) : Prop where
  read : ∀ e : Pte, e.encode &&& flag ≠ 0 ↔ get e = true
  on : ∀ e : Pte, e.encode ||| flag = (put e true).encode
  off : ∀ e : Pte, e.frame < 2 ^ 20 → e.encode &&& (2 ^ 32 - 1 - flag) = (put e false).encode
  same : ∀ e b, (put e b).frame = e.frame ∧ (put e b).present = e.present

theorem isFlag_dirty : IsFlag pteD Pte.dirty fun e b => { e with dirty := b } where
  read := Pte.encode_and_dirty
  on := Pte.encode_or_dirty
  off := fun _ => Pte.encode_clear_dirty
  same := fun _ _ => ⟨rfl, rfl⟩

theorem isFlag_accessed : IsFlag pteA Pte.accessed fun e b => { e with accessed := b } where
  read := Pte.encode_and_accessed
  on := Pte.encode_or_accessed
  off := fun _ => Pte.encode_clear_accessed
  same := fun _ _ => ⟨rfl, rfl⟩

section
variable {flag : ℕ} {get : Pte → Bool} {put : Pte → Bool → Pte}

/-- **A flag is read**; where there is no entry it is off. -/
theorem isSet_returns (hflag : IsFlag flag get put) (hr : Represents R init boot F H)
    (hd : d ∈ F.dirs) (hva : va < 2 ^ 32) : Returns (isSet R flag d va) H fun b H' =>
      H' = H ∧ b = (F.entry d (va / 4096)).any get := by
  obtain ⟨use, h, hm⟩ := hr
  unfold isSet
  refine (lookupPage_found h hm hd hva).seq ?_
  rintro a _ ⟨rfl, hfound⟩
  rcases hfound with ⟨rfl, hnone⟩ | ⟨p, e, hp, -, ha, he, -, hword⟩
  · rw [if_neg (not_not_intro rfl), hnone]
    exact returns_pure.2 ⟨rfl, rfl⟩
  · rw [if_pos ha, returns_readWord_bind ha, hword, he]
    refine returns_pure.2 ⟨rfl, ?_⟩
    rw [Option.any_some, Bool.eq_iff_iff, decide_eq_true_iff]
    exact hflag.read e

/-- An entry of the directory with another value of a flag. -/
noncomputable def Spaces.setFlag (F : Spaces) (put : Pte → Bool → Pte) (d v : ℕ) (b : Bool) :
    Spaces :=
  match F.entry d v with
  | some e => F.set d v (put e b)
  | none => F

/-- **A flag is changed**, if there is an entry. -/
theorem setTo_returns (hflag : IsFlag flag get put) (hr : Represents R init boot F H)
    (hd : d ∈ F.dirs) (hva : va < 2 ^ 32) (b : Bool) : Returns (setTo R flag d va b) H fun _ H' =>
      Represents R init boot (F.setFlag put d (va / 4096) b) H' ∧ F.Kept H.mem H'.mem := by
  obtain ⟨use, h, hm⟩ := hr
  unfold setTo Spaces.setFlag
  refine (lookupPage_found h hm hd hva).seq ?_
  rintro a H₁ ⟨rfl, hfound⟩
  rcases hfound with ⟨rfl, hnone⟩ | ⟨p, e, hp, hap, ha, he, hfits, hword⟩
  · rw [if_neg (not_not_intro rfl), hnone]
    exact returns_pure.2 ⟨⟨use, h, hm⟩, .refl F _⟩
  · obtain ⟨hframe, hpresent⟩ := hflag.same e b
    have hnew : (if b = true then e.encode ||| flag else e.encode &&& (2 ^ 32 - 1 - flag)) =
        (put e b).encode := by
      cases b with
      | false => exact hflag.off e hfits.frame_lt
      | true => exact hflag.on e
    have hset := hm.set h hp (by unfold Pte.Fits; rw [hframe]; exact hfits : (put e b).Fits)
    rw [← hap] at hset
    rw [if_pos ha, returns_readWord_bind ha, hword, he, hnew, returns_writeWord ha]
    refine ⟨⟨use, h.congr h.sized (fun q => Iff.rfl) rfl rfl fun q d' v' => ?_, hset⟩,
      h.kept_entry hp hap _⟩
    rw [maps_set hd]
    split_ifs with hsame
    · obtain ⟨rfl, rfl⟩ := hsame
      unfold Spaces.Maps
      have hpage : (put e b).page = e.page := by
        unfold Pte.page
        rw [hframe]
      rw [hpresent, hpage]
      constructor
      · rintro ⟨hv, hpq⟩
        exact ⟨hd, hv, e, he, hpq⟩
      · rintro ⟨-, hv, e', he', hpq⟩
        rw [he] at he'
        rw [Option.some.inj he']
        exact ⟨hv, hpq⟩
    · exact Iff.rfl

end

end Paging
end CS162
