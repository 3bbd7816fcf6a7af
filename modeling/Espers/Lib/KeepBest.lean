import Mathlib.Data.List.Perm.Basic
import Mathlib.Data.List.MinMax

/-!
# Keeping the best of what arrives

Values arrive one after the other and one is kept; a newcomer takes its place only if its rank is
strictly higher.  What is kept in the end is `List.argmax`, the first of the values of the highest
rank, so it depends on the order of arrival unless these are alike.

* `argmax_agree_iff` : **the order of arrival does not matter exactly if the values of highest rank
  are alike.**
* `novel` : the values that get through a filter that drops each value whose key has been seen.
* `kept_agree_iff` : the same for the values of one kind behind such a filter, where a value can win
  if the filter can hide what ranks above it.
-/

namespace KeepBest

open List

variable {α R V K : Type*} [LinearOrder R] {rank : α → R} {l l1 l2 : List α} {a b : α}

theorem argmax_cons_of_le (h : ∀ b ∈ l, rank b ≤ rank a) : (a :: l).argmax rank = some a := by
  rw [argmax_cons]
  cases hl : l.argmax rank with
  | none => rfl
  | some c =>
    have hc : ¬ rank a < rank c := not_lt.2 (h c (argmax_mem hl))
    simp [hc]

theorem exists_argmax (rank : α → R) (h : l ≠ []) : ∃ a, l.argmax rank = some a := by
  rw [← Option.ne_none_iff_exists']
  intro hnone
  exact h (argmax_eq_none.1 hnone)

/-- `a` is among the values and none ranks higher. -/
def Highest (rank : α → R) (l : List α) (a : α) : Prop := a ∈ l ∧ ∀ b ∈ l, rank b ≤ rank a

theorem Highest.of_argmax (h : l.argmax rank = some a) : Highest rank l a :=
  ⟨argmax_mem h, fun _ hb => le_of_mem_argmax hb h⟩

theorem Highest.perm (h : Highest rank l1 a) (hp : l1.Perm l2) : Highest rank l2 a :=
  ⟨hp.mem_iff.1 h.1, fun b hb => h.2 b (hp.mem_iff.2 hb)⟩

theorem Highest.exists_perm (h : Highest rank l a) :
    ∃ l' : List α, l'.Perm l ∧ l'.argmax rank = some a := by
  obtain ⟨s, t, rfl⟩ := append_of_mem h.1
  refine ⟨a :: (s ++ t), perm_middle.symm, argmax_cons_of_le fun b hb => h.2 b ?_⟩
  exact perm_middle.mem_iff.2 (mem_cons_of_mem a hb)

/-- **The order of arrival does not matter exactly if the values of highest rank are alike.** -/
theorem argmax_agree_iff (rank : α → R) (f : α → V) (l : List α) :
    (∀ l1 l2 : List α, l1.Perm l → l2.Perm l → (l1.argmax rank).map f = (l2.argmax rank).map f) ↔
      ∀ a b, Highest rank l a → Highest rank l b → f a = f b := by
  constructor
  · intro h a b ha hb
    obtain ⟨l1, hp1, h1⟩ := ha.exists_perm
    obtain ⟨l2, hp2, h2⟩ := hb.exists_perm
    simpa [h1, h2] using h l1 l2 hp1 hp2
  · intro h l1 l2 hp1 hp2
    rcases eq_or_ne l [] with rfl | hne
    · rw [hp1.eq_nil, hp2.eq_nil]
    · have hne1 : l1 ≠ [] := by
        rintro rfl
        exact hne hp1.symm.eq_nil
      have hne2 : l2 ≠ [] := by
        rintro rfl
        exact hne hp2.symm.eq_nil
      obtain ⟨a, ha⟩ := exists_argmax rank hne1
      obtain ⟨b, hb⟩ := exists_argmax rank hne2
      rw [ha, hb, Option.map_some, Option.map_some,
        h a b ((Highest.of_argmax ha).perm hp1) ((Highest.of_argmax hb).perm hp2)]

theorem exists_perm_filter {q : α → Prop} [DecidablePred q]
    (h : l1.Perm (l.filter (fun a => q a))) : ∃ l' : List α, l'.Perm l ∧
    l'.filter (fun a => q a) = l1 := by
  refine ⟨l1 ++ l.filter (fun a => ¬ q a), ?_, ?_⟩
  · have hsplit := filter_append_perm (fun a => decide (q a)) l
    exact (h.append_right _).trans (by simpa using hsplit)
  · have hall : ∀ a ∈ l1, decide (q a) = true := fun a ha => (mem_filter.1 (h.mem_iff.1 ha)).2
    rw [filter_append, filter_eq_self.2 hall, filter_filter]
    simp

/-! ### Behind a filter on keys -/

variable [DecidableEq K] {g : α → K}

/-- The values whose key has not been seen before, in their order of arrival. -/
def novel (g : α → K) (l : List α) : List α :=
  l.foldl (fun seen a => if g a ∈ seen.map g then seen else seen ++ [a]) []

@[simp] theorem novel_nil : novel g [] = [] := rfl

theorem novel_snoc : novel g (l ++ [a]) =
    if g a ∈ (novel g l).map g then novel g l else novel g l ++ [a] := by
  simp [novel]

theorem novel_subset : novel g l ⊆ l := by
  induction l using List.reverseRecOn with
  | nil => simp
  | append_singleton l a ih =>
    rw [novel_snoc]
    split
    · exact fun b hb => mem_append_left _ (ih hb)
    · exact append_subset.2 ⟨fun b hb => mem_append_left _ (ih hb), by simp⟩

theorem exists_mem_novel (h : a ∈ l) : ∃ b ∈ novel g l, g b = g a := by
  induction l using List.reverseRecOn with
  | nil => simp at h
  | append_singleton l c ih =>
    rw [novel_snoc]
    rcases mem_append.1 h with h | h
    · obtain ⟨b, hb, hg⟩ := ih h
      refine ⟨b, ?_, hg⟩
      split
      · exact hb
      · exact mem_append_left _ hb
    · obtain rfl : a = c := mem_singleton.1 h
      split
      · rename_i hseen
        exact mem_map.1 hseen
      · exact ⟨a, by simp, rfl⟩

theorem mem_of_novel_append (h : a ∈ novel g (l1 ++ l2)) (hk : ∃ b ∈ l1, g b = g a) : a ∈ l1 := by
  induction l2 using List.reverseRecOn with
  | nil => exact novel_subset (by simpa using h)
  | append_singleton l2 c ih =>
    rw [← append_assoc, novel_snoc] at h
    split at h
    · exact ih h
    · rename_i hnew
      rcases mem_append.1 h with h | h
      · exact ih h
      · obtain rfl : a = c := mem_singleton.1 h
        obtain ⟨b, hb, hg⟩ := hk
        obtain ⟨d, hd, hgd⟩ := exists_mem_novel (g := g) (mem_append_left l2 hb)
        exact absurd (mem_map.2 ⟨d, hd, hgd.trans hg⟩) hnew

theorem novel_cons : ∃ t, novel g (a :: l) = a :: t := by
  induction l using List.reverseRecOn with
  | nil => exact ⟨[], by simp [novel]⟩
  | append_singleton l c ih =>
    obtain ⟨t, ht⟩ := ih
    rw [← cons_append, novel_snoc, ht]
    split
    · exact ⟨t, rfl⟩
    · exact ⟨t ++ [c], rfl⟩

/-- What is kept of the values of one kind that get through. -/
def kept (g : α → K) (p : α → Prop) [DecidablePred p] (rank : α → R) (l : List α) : Option α :=
  ((novel g l).filter p).argmax rank

/-- `a` can be kept: each other key has a value that is of another kind or does not rank above
`a`. -/
structure Contender (g : α → K) (p : α → Prop) (rank : α → R) (l : List α) (a : α) : Prop where
  mem : a ∈ l
  kind : p a
  rivals : ∀ b ∈ l, g b ≠ g a → ∃ c ∈ l, g c = g b ∧ (p c → rank c ≤ rank a)

variable {p : α → Prop} [DecidablePred p]

theorem kept_snoc_seen (h : g a ∈ (novel g l).map g) :
    kept g p rank (l ++ [a]) = kept g p rank l := by
  rw [kept, kept, novel_snoc, if_pos h]

theorem kept_snoc_new (h : g a ∉ (novel g l).map g) : kept g p rank (l ++ [a]) = if p a then
      match kept g p rank l with
      | none => some a
      | some b => if rank b < rank a then some a else some b
    else kept g p rank l := by
  unfold kept
  rw [novel_snoc, if_neg h, filter_append]
  by_cases hp : p a
  · rw [if_pos hp, filter_cons_of_pos (by simpa using hp), filter_nil, argmax_concat]
    cases ((novel g l).filter p).argmax rank <;> rfl
  · rw [if_neg hp, filter_cons_of_neg (by simpa using hp), filter_nil, append_nil]

theorem Contender.of_kept (h : kept g p rank l = some a) : Contender g p rank l a := by
  obtain ⟨hmem, hmax⟩ := Highest.of_argmax h
  rw [mem_filter, decide_eq_true_iff] at hmem
  refine ⟨novel_subset hmem.1, hmem.2, fun b hb _ => ?_⟩
  obtain ⟨c, hc, hg⟩ := exists_mem_novel (g := g) hb
  exact ⟨c, novel_subset hc, hg, fun hpc => hmax c (by simp [hc, hpc])⟩

omit [DecidableEq K] [DecidablePred p] in
theorem Contender.perm (h : Contender g p rank l1 a) (hp : l1.Perm l2) :
    Contender g p rank l2 a := by
  refine ⟨hp.mem_iff.1 h.mem, h.kind, fun b hb hne => ?_⟩
  obtain ⟨c, hc, hcb⟩ := h.rivals b (hp.mem_iff.2 hb) hne
  exact ⟨c, hp.mem_iff.1 hc, hcb⟩

/-- The values with a property first. -/
def front (q : α → Prop) [DecidablePred q] (l : List α) : List α :=
  l.filter (fun a => q a) ++ l.filter (fun a => ¬ q a)

theorem front_perm (q : α → Prop) [DecidablePred q] (l : List α) : (front q l).Perm l := by
  simpa [front] using filter_append_perm (fun a => decide (q a)) l

theorem of_mem_novel_front {q : α → Prop} [DecidablePred q] (h : a ∈ novel g (front q l))
    (hk : ∃ b ∈ l, q b ∧ g b = g a) : q a := by
  obtain ⟨b, hb, hqb, hg⟩ := hk
  have ha : a ∈ l.filter (fun a => q a) := mem_of_novel_append h ⟨b, by simp [hb, hqb], hg⟩
  simpa using (mem_filter.1 ha).2

/-- Some order of arrival keeps a contender. -/
theorem Contender.exists_perm (h : Contender g p rank l a) :
    ∃ l' : List α, l'.Perm l ∧ kept g p rank l' = some a := by
  obtain ⟨s, t, hl⟩ := append_of_mem h.mem
  -- `a` first, then what it does not lose to, then the rest
  let q : α → Prop := fun c => p c → rank c ≤ rank a
  have hqa : q a := fun _ => le_rfl
  have hperm : (front q (a :: (s ++ t))).Perm l :=
    (front_perm q _).trans (hl ▸ perm_middle.symm)
  have hfront : front q (a :: (s ++ t)) = a :: front q (s ++ t) := by
    simp [front, hqa]
  refine ⟨_, hperm, ?_⟩
  obtain ⟨r, hr⟩ := novel_cons (g := g) (a := a) (l := front q (s ++ t))
  have hnovel : novel g (front q (a :: (s ++ t))) = a :: r := by rw [hfront, hr]
  unfold kept
  rw [hnovel, filter_cons_of_pos (by simpa using h.kind)]
  refine argmax_cons_of_le fun b hb => ?_
  rw [mem_filter, decide_eq_true_iff] at hb
  have hbn : b ∈ novel g (front q (a :: (s ++ t))) := by simp [hnovel, hb.1]
  by_cases hg : g b = g a
  · -- only `a` itself gets through with its key
    rw [hfront, ← singleton_append] at hbn
    have hba : b ∈ [a] := mem_of_novel_append hbn ⟨a, by simp, hg.symm⟩
    rw [mem_singleton.1 hba]
  · obtain ⟨c, hc, hcb, hqc⟩ := h.rivals b (hperm.mem_iff.1 (novel_subset hbn)) hg
    refine of_mem_novel_front hbn ⟨c, ?_, hqc, hcb⟩ hb.2
    exact perm_middle.mem_iff.1 (hl ▸ hc)

theorem kept_eq_none : kept g p rank l = none ↔ ∀ a ∈ novel g l, ¬ p a := by
  simp [kept]

theorem exists_perm_none (rank : α → R) (h : ∀ a ∈ l, ∃ b ∈ l, g b = g a ∧ ¬ p b) :
    ∃ l' : List α, l'.Perm l ∧ kept g p rank l' = none := by
  refine ⟨front (fun a => ¬ p a) l, front_perm _ l, kept_eq_none.2 fun a ha => ?_⟩
  obtain ⟨b, hb, hg, hpb⟩ := h a ((front_perm _ l).mem_iff.1 (novel_subset ha))
  exact of_mem_novel_front (q := fun a => ¬ p a) ha ⟨b, hb, hpb, hg⟩

theorem kept_isSome (h : ∃ a ∈ l, ∀ b ∈ l, g b = g a → p b) : ∃ a, kept g p rank l = some a := by
  rw [← Option.ne_none_iff_exists', Ne, kept_eq_none]
  intro hnone
  obtain ⟨a, ha, hp⟩ := h
  obtain ⟨b, hb, hg⟩ := exists_mem_novel (g := g) ha
  exact hnone b hb (hp b (novel_subset hb) hg)

/-- **The order of arrival does not matter exactly if** what can be kept is alike and, where there
is a value of the kind, some key has values of the kind only. -/
theorem kept_agree_iff (g : α → K) (p : α → Prop) [DecidablePred p] (rank : α → R) (f : α → V)
    (l : List α) :
    (∀ l1 l2 : List α, l1.Perm l → l2.Perm l →
        (kept g p rank l1).map f = (kept g p rank l2).map f) ↔
      (∀ a b, Contender g p rank l a → Contender g p rank l b → f a = f b) ∧
        ((∃ a ∈ l, p a) → ∃ a ∈ l, ∀ b ∈ l, g b = g a → p b) := by
  constructor
  · intro h
    refine ⟨fun a b ha hb => ?_, fun hp => ?_⟩
    · obtain ⟨l1, hp1, h1⟩ := ha.exists_perm
      obtain ⟨l2, hp2, h2⟩ := hb.exists_perm
      simpa [h1, h2] using h l1 l2 hp1 hp2
    · by_contra hno
      push Not at hno
      obtain ⟨l1, hp1, h1⟩ := exists_perm_none rank hno
      -- a value of the kind that arrives first gets through
      obtain ⟨a, ha, hpa⟩ := hp
      obtain ⟨s, t, hl⟩ := append_of_mem ha
      have h2 := h l1 (a :: (s ++ t)) hp1 (hl ▸ perm_middle.symm)
      rw [h1, Option.map_none, eq_comm, Option.map_eq_none_iff, kept_eq_none] at h2
      obtain ⟨r, hr⟩ := novel_cons (g := g) (a := a) (l := s ++ t)
      exact h2 a (by simp [hr]) hpa
  · rintro ⟨halike, hsure⟩ l1 l2 hp1 hp2
    -- nothing is kept in one order only if there is nothing of the kind
    have hsome : (∃ a ∈ l, p a) → ∀ l' : List α, l'.Perm l → ∃ a, kept g p rank l' = some a := by
      intro hp l' hl'
      obtain ⟨a, ha, hall⟩ := hsure hp
      exact kept_isSome ⟨a, hl'.mem_iff.2 ha, fun b hb => hall b (hl'.mem_iff.1 hb)⟩
    by_cases hp : ∃ a ∈ l, p a
    · obtain ⟨a, ha⟩ := hsome hp l1 hp1
      obtain ⟨b, hb⟩ := hsome hp l2 hp2
      rw [ha, hb, Option.map_some, Option.map_some,
        halike a b ((Contender.of_kept ha).perm hp1) ((Contender.of_kept hb).perm hp2)]
    · have hnone : ∀ l' : List α, l'.Perm l → kept g p rank l' = none := by
        intro l' hl'
        rw [kept_eq_none]
        intro a ha hpa
        exact hp ⟨a, hl'.mem_iff.1 (novel_subset ha), hpa⟩
      rw [hnone l1 hp1, hnone l2 hp2]

end KeepBest
