import Mathlib.Data.Set.Basic
import Mathlib.Data.List.Pairwise
import Mathlib.Tactic.Common

/-!
# Copies of a key in a leveled store

A store keeps the records of a key in files, the files in levels; a reader takes the first copy it
meets, going down the levels and in each level from the newest file on. A merge rewrites some of
the copies into one in a given level. `Merge` lists what makes this harmless: every read gives
the same value (`Merge.reads_union`, `Merge.reads_done`), before the old copies are removed and
after. Copies in one level need not agree, as long as the ones that do not are hidden by a level
above (`Shadowed`), and a merge keeps it so.
-/

namespace Leveled

/-- A record of one key, in file `id` of a level. -/
structure Copy (ρ : Type) where
  level : Nat
  id : Nat
  record : ρ

variable {ρ β : Type} {C I O : Set (Copy ρ)} {a b c : Copy ρ}

/-- A reader meets `a` before `b`. -/
def Before (a b : Copy ρ) : Prop := a.level < b.level ∨ (a.level = b.level ∧ b.id < a.id)

theorem Before.level_le (h : Before a b) : a.level ≤ b.level := by
  rcases h with h | ⟨h, -⟩ <;> omega

theorem Before.asymm (h : Before a b) : ¬ Before b a := by
  intro h'
  unfold Before at h h'
  omega

/-- The copy that a reader meets first. -/
structure Top (C : Set (Copy ρ)) (a : Copy ρ) : Prop where
  mem : a ∈ C
  first : ∀ b ∈ C, b = a ∨ Before a b

theorem Top.level_le (h : Top C a) (hb : b ∈ C) : a.level ≤ b.level := by
  rcases h.first b hb with rfl | hbefore
  · exact le_rfl
  · exact hbefore.level_le

theorem Top.unique (h : Top C a) (h' : Top C b) : a = b := by
  rcases h.first b h'.mem with heq | hab
  · exact heq.symm
  · rcases h'.first a h.mem with heq | hba
    · exact heq
    · exact absurd hba hab.asymm

/-- The first copy of a larger store, if the smaller one has it. -/
theorem Top.of_subset (h : Top C a) (hsub : I ⊆ C) (ha : a ∈ I) : Top I a :=
  ⟨ha, fun b hb => h.first b (hsub hb)⟩

/-- What a reader comes back with. -/
def Reads (C : Set (Copy ρ)) : Option ρ → Prop
  | none => C = ∅
  | some r => ∃ a, Top C a ∧ a.record = r

theorem Reads.unique {r r' : Option ρ} (h : Reads C r) (h' : Reads C r') : r = r' := by
  cases r with
  | none =>
    cases r' with
    | none => rfl
    | some r' =>
      obtain ⟨a, ha, -⟩ := h'
      exact absurd (h ▸ ha.mem) (Set.notMem_empty a)
  | some r =>
    obtain ⟨a, ha, hr⟩ := h
    cases r' with
    | none => exact absurd (h' ▸ ha.mem) (Set.notMem_empty a)
    | some r' =>
      obtain ⟨b, hb, hr'⟩ := h'
      rw [← hr, ← hr', ha.unique hb]

/-- Copies of one level that disagree are hidden by a copy in a level above. The files of level
zero are read by age, so there they may disagree. -/
def Shadowed (C : Set (Copy ρ)) : Prop :=
  ∀ a ∈ C, ∀ b ∈ C, a.level = b.level → 0 < a.level → a.record ≠ b.record →
    ∃ c ∈ C, c.level < a.level

/-- In the level of the first copy all copies agree. -/
theorem Shadowed.record_eq (h : Shadowed C) (ha : Top C a) (hb : b ∈ C)
    (hlevel : b.level = a.level) (hpos : 0 < a.level) : b.record = a.record := by
  by_contra hne
  obtain ⟨c, hc, hlt⟩ := h a ha.mem b hb hlevel.symm hpos (Ne.symm hne)
  have := ha.level_le hc
  omega

/-- The copies `I` of `C` are merged into the copies `O` in the level `target`, whose record is the
one that a reader of `I` alone would find. -/
structure Merge (C I O : Set (Copy ρ)) (target : Nat) (t : Copy ρ) : Prop where
  sub : I ⊆ C
  top : Top I t
  target_pos : 0 < target
  out_level : ∀ o ∈ O, o.level = target
  out_record : ∀ o ∈ O, o.record = t.record
  /-- A copy that stays is above a merged one and above the target, or in its level but not in
  level zero, or below it and below the target. -/
  apart : ∀ i ∈ I, ∀ c ∈ C, c ∉ I →
    (c.level < i.level ∧ c.level < target) ∨
    (c.level = i.level ∧ 0 < c.level) ∨
    (i.level < c.level ∧ target < c.level)

/-- The merged record is left out only if it says that there is no value, and if no copy below
the target stays; `value` is what a record means to a reader. -/
def Drops (value : ρ → Option β) (C I O : Set (Copy ρ)) (target : Nat) (t : Copy ρ) : Prop :=
  O = ∅ → value t.record = none ∧ ∀ c ∈ C, c ∉ I → c.level ≤ target

namespace Merge

variable {value : ρ → Option β} {target : Nat} {t : Copy ρ}

/-- A new copy comes before the first old one only where the two have the same record. -/
theorem record_of_before (h : Merge C I O target t) (hs : Shadowed C) (ha : Top C a)
    (hle : target ≤ a.level) : a.record = t.record := by
  by_cases hmem : a ∈ I
  · rw [(ha.of_subset h.sub hmem).unique h.top]
  · have hat := ha.level_le (h.sub h.top.mem)
    have hpos : 0 < a.level := lt_of_lt_of_le h.target_pos hle
    rcases h.apart t h.top.mem a ha.mem hmem with ⟨-, hlt⟩ | ⟨heq, -⟩ | ⟨hlt, -⟩
    · omega
    · exact (hs.record_eq ha (h.sub h.top.mem) heq.symm hpos).symm
    · omega

/-- The new copies on top of the old ones change no read. -/
theorem reads_union (h : Merge C I O target t) (hs : Shadowed C) {r r' : Option ρ}
    (hr : Reads C r) (hr' : Reads (C ∪ O) r') : r' = r := by
  cases r with
  | none => exact absurd (hr ▸ h.sub h.top.mem) (Set.notMem_empty t)
  | some r =>
    obtain ⟨a, ha, hrec⟩ := hr
    cases r' with
    | none =>
      have hmem : a ∈ C ∪ O := Or.inl ha.mem
      exact absurd (hr' ▸ hmem) (Set.notMem_empty a)
    | some r' =>
      obtain ⟨a', ha', hrec'⟩ := hr'
      rw [← hrec, ← hrec']
      congr 1
      rcases ha'.mem with hC | hO
      · rw [(ha'.of_subset Set.subset_union_left hC).unique ha]
      · have hle : target ≤ a.level := by
          rw [← h.out_level a' hO]
          exact ha'.level_le (Or.inl ha.mem)
        rw [h.out_record a' hO, h.record_of_before hs ha hle]

theorem shadowed_union (h : Merge C I O target t) (hs : Shadowed C) : Shadowed (C ∪ O) := by
  have hnew : ∀ o ∈ O, ∀ y ∈ C, y.level = target → o.record ≠ y.record →
      ∃ c ∈ C ∪ O, c.level < target := by
    intro o ho y hy hlevel hne
    rw [h.out_record o ho] at hne
    by_cases hlt : t.level < target
    · exact ⟨t, Or.inl (h.sub h.top.mem), hlt⟩
    · have hty : t.level = y.level := by
        by_cases hmem : y ∈ I
        · have := h.top.level_le hmem
          omega
        · rcases h.apart t h.top.mem y hy hmem with ⟨-, hlt⟩ | ⟨heq, -⟩ | ⟨-, hlt⟩ <;> omega
      have hpos := h.target_pos
      obtain ⟨c, hc, hlt⟩ := hs t (h.sub h.top.mem) y hy hty (by omega) hne
      exact ⟨c, Or.inl hc, by omega⟩
  intro x hx y hy hlevel hpos hne
  rcases hx with hx | hx
  · rcases hy with hy | hy
    · obtain ⟨c, hc, hlt⟩ := hs x hx y hy hlevel hpos hne
      exact ⟨c, Or.inl hc, hlt⟩
    · rw [h.out_level y hy] at hlevel
      rw [hlevel]
      exact hnew y hy x hx hlevel (Ne.symm hne)
  · have hxlevel := h.out_level x hx
    rcases hy with hy | hy
    · rw [hxlevel]
      exact hnew x hx y hy (by omega) hne
    · exact absurd ((h.out_record x hx).trans (h.out_record y hy).symm) hne

/-- Once the merged copies are gone as well, every read still gives the same value. -/
theorem reads_done (h : Merge C I O target t) (hdrops : Drops value C I O target t)
    (hs : Shadowed C) {r r' : Option ρ} (hr : Reads C r) (hr' : Reads (C \ I ∪ O) r') :
    r'.bind value = r.bind value := by
  cases r with
  | none => exact absurd (hr ▸ h.sub h.top.mem) (Set.notMem_empty t)
  | some r =>
    obtain ⟨a, ha, rfl⟩ := hr
    by_cases hmem : a ∈ I
    · -- the first copy is merged: the reader now meets a new copy, or one that agrees with it
      obtain rfl := (ha.of_subset h.sub hmem).unique h.top
      cases r' with
      | none =>
        have hO : O = ∅ := Set.subset_empty_iff.mp fun o ho => hr' ▸ Or.inr ho
        exact (hdrops hO).1.symm
      | some r' =>
        obtain ⟨a', ha', rfl⟩ := hr'
        congr 1
        rcases ha'.mem with ⟨hC, hI⟩ | hO
        · rcases h.apart a hmem a' hC hI with ⟨hlt, -⟩ | ⟨heq, hpos⟩ | ⟨-, hlt⟩
          · have := ha.level_le hC
            omega
          · rw [hs.record_eq ha hC heq (by omega)]
          · rcases Set.eq_empty_or_nonempty O with hO | ⟨o, ho⟩
            · have := (hdrops hO).2 a' hC hI
              omega
            · have := ha'.level_le (Or.inr ho)
              have := h.out_level o ho
              omega
        · rw [h.out_record a' hO]
    · cases r' with
      | none =>
        have : a ∈ C \ I ∪ O := Or.inl ⟨ha.mem, hmem⟩
        exact absurd (hr' ▸ this) (Set.notMem_empty a)
      | some r' =>
        obtain ⟨a', ha', rfl⟩ := hr'
        congr 1
        rcases ha'.mem with hrest | hO
        · have hsub : C \ I ⊆ C := fun _ hc => hc.1
          rw [(ha'.of_subset Set.subset_union_left hrest).unique
            (ha.of_subset hsub ⟨ha.mem, hmem⟩)]
        · have hle : target ≤ a.level := by
            rw [← h.out_level a' hO]
            exact ha'.level_le (Or.inl ⟨ha.mem, hmem⟩)
          rw [h.out_record a' hO, h.record_of_before hs ha hle]

theorem shadowed_done (h : Merge C I O target t) (hdrops : Drops value C I O target t)
    (hs : Shadowed C) : Shadowed (C \ I ∪ O) := by
  have hnew : ∀ o ∈ O, ∀ y ∈ C \ I, y.level = target → o.record ≠ y.record →
      ∃ c ∈ C \ I ∪ O, c.level < target := by
    intro o ho y ⟨hy, hyI⟩ hlevel hne
    rw [h.out_record o ho] at hne
    have hty : y.level = t.level := by
      rcases h.apart t h.top.mem y hy hyI with ⟨-, hlt⟩ | ⟨heq, -⟩ | ⟨-, hlt⟩ <;> omega
    have hpos := h.target_pos
    obtain ⟨c, hc, hlt⟩ := hs t (h.sub h.top.mem) y hy hty.symm (by omega) hne
    have hcI : c ∉ I := by
      intro hcI
      have := h.top.level_le hcI
      omega
    exact ⟨c, Or.inl ⟨hc, hcI⟩, by omega⟩
  intro x hx y hy hlevel hpos hne
  rcases hx with ⟨hx, hxI⟩ | hx
  · rcases hy with ⟨hy, hyI⟩ | hy
    · obtain ⟨c, hc, hlt⟩ := hs x hx y hy hlevel hpos hne
      by_cases hcI : c ∈ I
      · -- the copy that hid them is merged; they are below the target, where a new one hides them
        rcases h.apart c hcI x hx hxI with ⟨hlt', -⟩ | ⟨heq, -⟩ | ⟨-, hbelow⟩
        · omega
        · omega
        · rcases Set.eq_empty_or_nonempty O with hO | ⟨o, ho⟩
          · have := (hdrops hO).2 x hx hxI
            omega
          · exact ⟨o, Or.inr ho, by rw [h.out_level o ho]; exact hbelow⟩
      · exact ⟨c, Or.inl ⟨hc, hcI⟩, hlt⟩
    · rw [h.out_level y hy] at hlevel
      rw [hlevel]
      exact hnew y hy x ⟨hx, hxI⟩ hlevel (Ne.symm hne)
  · have hxlevel := h.out_level x hx
    rcases hy with hy | hy
    · rw [hxlevel]
      exact hnew x hx y hy (by omega) hne
    · exact absurd ((h.out_record x hx).trans (h.out_record y hy).symm) hne

end Merge

/-! ## Two stores read as one -/

/-- A reader meets `a` before all of these copies. -/
def Hides (a : Copy ρ) (C : Set (Copy ρ)) : Prop := ∀ b ∈ C, Before a b

theorem hides_union : Hides a (C ∪ O) ↔ Hides a C ∧ Hides a O := by
  simp only [Hides, Set.mem_union, or_imp, forall_and]

/-- A reader of both stores comes back with the first copy of `C` if it hides `O`, and otherwise
with what it finds in `O`. -/
theorem Reads.of_union (hdisjoint : ∀ c ∈ C, c ∉ O) {r : Option ρ} (h : Reads (C ∪ O) r) :
    (∃ c, Top C c ∧ Hides c O ∧ r = some c.record) ∨ ((∀ c, Top C c → ¬ Hides c O) ∧ Reads O r) := by
  cases r with
  | none =>
    obtain ⟨hC, hO⟩ := Set.union_empty_iff.mp h
    exact Or.inr ⟨fun c hc _ => absurd (hC ▸ hc.mem) (Set.notMem_empty c), hO⟩
  | some r =>
    obtain ⟨a, ha, rfl⟩ := h
    rcases ha.mem with hC | hO
    · refine Or.inl ⟨a, ha.of_subset Set.subset_union_left hC, fun b hb => ?_, rfl⟩
      rcases ha.first b (Or.inr hb) with rfl | hbefore
      · exact absurd hb (hdisjoint b hC)
      · exact hbefore
    · refine Or.inr ⟨fun c hc hhides => ?_, a, ha.of_subset Set.subset_union_right hO, rfl⟩
      have hca := hhides a hO
      rcases ha.first c (Or.inl hc.mem) with rfl | hac
      · exact hca.asymm hca
      · exact hca.asymm hac

/-- The first copy of both stores is the first of `C`, or it is in `O`. -/
theorem Reads.union_cases {r : Option ρ} (h : Reads (C ∪ O) r) :
    Reads C r ∨ ∃ o ∈ O, Top (C ∪ O) o ∧ r = some o.record := by
  cases r with
  | none => exact Or.inl (Set.union_empty_iff.mp h).1
  | some r =>
    obtain ⟨a, ha, rfl⟩ := h
    rcases ha.mem with hC | hO
    · exact Or.inl ⟨a, ha.of_subset Set.subset_union_left hC, rfl⟩
    · exact Or.inr ⟨a, hO, ha, rfl⟩

/-- What a reader finds in a store in front of another one is the same in front of a third. -/
theorem Reads.of_front {r : Option ρ} (hI : ∀ o ∈ O, Hides o I) (hC : ∀ o ∈ O, Hides o C)
    (h : Reads (I ∪ O) r) : Reads (C ∪ O) r ∨ (O = ∅ ∧ Reads I r) := by
  rcases O.eq_empty_or_nonempty with rfl | ⟨o, ho⟩
  · rw [Set.union_empty] at h
    exact Or.inr ⟨rfl, h⟩
  · left
    cases r with
    | none => exact absurd ((Set.union_empty_iff.mp h).2 ▸ ho) (Set.notMem_empty o)
    | some r =>
      obtain ⟨a, ha, rfl⟩ := h
      have hin : a ∈ O := by
        refine ha.mem.resolve_left fun haI => ?_
        have hbefore := hI o ho a haI
        rcases ha.first o (Or.inr ho) with rfl | hafter
        · exact hbefore.asymm hbefore
        · exact hbefore.asymm hafter
      refine ⟨a, ⟨Or.inr hin, ?_⟩, rfl⟩
      rintro b (hb | hb)
      · exact Or.inr (hC a hin b hb)
      · exact ha.first b (Or.inr hb)

/-! ## Adding in front -/

/-- A copy in level zero that is newer than those there is the first. -/
theorem Top.of_newest {o : Copy ρ} (hzero : o.level = 0)
    (hnew : ∀ a ∈ C, a.level = 0 → a.id < o.id) : Top (C ∪ {o}) o := by
  refine ⟨Or.inr rfl, fun b hb => ?_⟩
  rcases hb with hb | rfl
  · right
    rcases Nat.eq_zero_or_pos b.level with hlevel | hpos
    · exact Or.inr ⟨hzero.trans hlevel.symm, hnew b hb hlevel⟩
    · exact Or.inl (hzero ▸ hpos)
  · exact Or.inl rfl

/-- Copies in level zero may disagree. -/
theorem Shadowed.union_zero (h : Shadowed C) (hzero : ∀ o ∈ O, o.level = 0) :
    Shadowed (C ∪ O) := by
  have hold : ∀ a ∈ C ∪ O, 0 < a.level → a ∈ C := fun a ha hpos =>
    ha.resolve_right fun hO => absurd (hzero a hO) hpos.ne'
  intro a ha b hb hlevel hpos hne
  obtain ⟨c, hc, hlt⟩ := h a (hold a ha hpos) b (hold b hb (hlevel ▸ hpos)) hlevel hpos hne
  exact ⟨c, Or.inl hc, hlt⟩

/-! ## Reading a list of files -/

/-- The copies that a list of files holds, `look` being the lookup of the key in a file. -/
def copiesIn {φ : Type} (level id : φ → Nat) (look : φ → Option ρ) (files : Set φ) :
    Set (Copy ρ) :=
  {c | ∃ f ∈ files, level f = c.level ∧ id f = c.id ∧ look f = some c.record}

section Files

variable {φ : Type} {level id : φ → Nat} {look : φ → Option ρ}

theorem copiesIn_union (F G : Set φ) :
    copiesIn level id look (F ∪ G) = copiesIn level id look F ∪ copiesIn level id look G := by
  ext c
  constructor
  · rintro ⟨f, hf | hf, h⟩
    · exact Or.inl ⟨f, hf, h⟩
    · exact Or.inr ⟨f, hf, h⟩
  · rintro (⟨f, hf, h⟩ | ⟨f, hf, h⟩)
    · exact ⟨f, Or.inl hf, h⟩
    · exact ⟨f, Or.inr hf, h⟩

/-- Where each file is known by its level and id, taking files away takes their copies away. -/
theorem copiesIn_diff {F G : Set φ} (hid : ∀ f ∈ F, ∀ g ∈ F, id f = id g → f = g) (hsub : G ⊆ F) :
    copiesIn level id look (F \ G) = copiesIn level id look F \ copiesIn level id look G := by
  ext c
  constructor
  · rintro ⟨f, ⟨hf, hfG⟩, h⟩
    refine ⟨⟨f, hf, h⟩, ?_⟩
    rintro ⟨g, hg, h'⟩
    exact hfG (hid f hf g (hsub hg) (h.2.1.trans h'.2.1.symm) ▸ hg)
  · rintro ⟨⟨f, hf, h⟩, hnot⟩
    exact ⟨f, ⟨hf, fun hfG => hnot ⟨f, hfG, h⟩⟩, h⟩

theorem copiesIn_mono {F G : Set φ} (h : F ⊆ G) :
    copiesIn level id look F ⊆ copiesIn level id look G :=
  fun _ ⟨f, hf, hc⟩ => ⟨f, h hf, hc⟩

/-- Files with ids of their own have copies of their own. -/
theorem copiesIn_disjoint {F G : Set φ} (hid : ∀ f ∈ F, ∀ g ∈ G, id f ≠ id g) :
    ∀ c ∈ copiesIn level id look F, c ∉ copiesIn level id look G := by
  rintro c ⟨f, hf, -, hfid, -⟩ ⟨g, hg, -, hgid, -⟩
  exact hid f hf g hg (hfid.trans hgid.symm)

theorem copiesIn_singleton_none {f : φ} (h : look f = none) : copiesIn level id look {f} = ∅ := by
  refine Set.eq_empty_of_forall_notMem ?_
  rintro c ⟨g, rfl, -, -, hr⟩
  rw [h] at hr
  cases hr

theorem copiesIn_singleton_some {f : φ} {r : ρ} (h : look f = some r) :
    copiesIn level id look {f} = {⟨level f, id f, r⟩} := by
  ext c
  constructor
  · rintro ⟨g, rfl, hlevel, hid, hr⟩
    rw [h] at hr
    cases c
    cases hlevel
    cases hid
    cases hr
    rfl
  · rintro rfl
    exact ⟨f, rfl, rfl, rfl, h⟩

/-- The files in the order in which a reader visits them. -/
def InOrder (level id : φ → Nat) (files : List φ) : Prop :=
  files.Pairwise fun f g => level f < level g ∨ (level f = level g ∧ id g < id f)

/-- The first file with the key has the first copy. -/
theorem reads_findSome? {files : List φ} (h : InOrder level id files) :
    Reads (copiesIn level id look {f | f ∈ files}) (files.findSome? look) := by
  induction files with
  | nil =>
    refine Set.eq_empty_of_forall_notMem ?_
    rintro c ⟨f, hf, -⟩
    exact absurd hf List.not_mem_nil
  | cons f files ih =>
    have hrest := ih (List.Pairwise.of_cons h)
    rw [List.findSome?_cons]
    cases hlook : look f with
    | some r =>
      refine ⟨⟨level f, id f, r⟩, ⟨⟨f, List.mem_cons_self, rfl, rfl, hlook⟩, ?_⟩, rfl⟩
      rintro ⟨l, i, r'⟩ ⟨g, hg, rfl, rfl, hr'⟩
      rcases List.mem_cons.mp hg with rfl | hg
      · left
        rw [hlook, Option.some.injEq] at hr'
        rw [hr']
      · right
        exact List.rel_of_pairwise_cons h hg
    | none =>
      have hsame : copiesIn level id look {g | g ∈ f :: files} =
          copiesIn level id look {g | g ∈ files} := by
        ext c
        constructor
        · rintro ⟨g, hg, hc⟩
          rcases List.mem_cons.mp hg with rfl | hg
          · rw [hlook] at hc
            exact absurd hc.2.2 (Option.some_ne_none _).symm
          · exact ⟨g, hg, hc⟩
        · rintro ⟨g, hg, hc⟩
          exact ⟨g, List.mem_cons_of_mem _ hg, hc⟩
      rw [hsame]
      exact hrest

end Files

end Leveled
