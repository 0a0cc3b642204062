-- Trees of words, given by the word at the end of each path. A tree is pruned when an inner word
-- stands exactly where a leaf stands below it. Paths of length `K` end at leaves.
import Mathlib.Tactic

namespace PrunedPaths

variable {ι W : Type} [Zero W]

/-- The paths of a tree whose first index is in `S`. -/
structure Valid (S : Finset ι) (K : Nat) (p : List ι) : Prop where
  ne_nil : p ≠ []
  length : p.length ≤ K
  head : ∀ i ∈ p.head?, i ∈ S

/-- The tree is pruned, except along the first `n` words on the path `q`. Words of inner nodes and
of leaves are as `inner` and `leaf` say. -/
structure PrunedBut (S : Finset ι) (K : Nat) (inner leaf : W → Prop) (n : Nat) (q : List ι)
    (words : List ι → W) : Prop where
  inner : ∀ p, Valid S K p → p.length < K → words p ≠ 0 → inner (words p) ∧
    ((p.length ≤ n ∧ p <+: q) ∨ ∃ p', p'.length = K ∧ p <+: p' ∧ words p' ≠ 0)
  leaf : ∀ p, Valid S K p → p.length = K → words p ≠ 0 → leaf (words p)

/-- The word at `p` is set to `w`, and no other. -/
def Sets (S : Finset ι) (K : Nat) (p : List ι) (w : W) (words words' : List ι → W) : Prop :=
  words' p = w ∧ ∀ p', Valid S K p' → p' ≠ p → words' p' = words p'

variable {S : Finset ι} {K n : Nat} {inner leaf : W → Prop} {p q : List ι} {w : W}
  {words words' : List ι → W}

theorem Valid.below (h : Valid S K p) {p' : List ι} (hpre : p <+: p') (hlen : p'.length ≤ K) :
    Valid S K p' := by
  obtain ⟨rest, rfl⟩ := hpre
  refine ⟨?_, hlen, ?_⟩
  · intro he
    exact h.ne_nil (List.append_eq_nil_iff.mp he).1
  · rw [List.head?_append_of_ne_nil _ h.ne_nil]
    exact h.head

theorem Valid.above (h : Valid S K q) (hpre : p <+: q) (hp : p ≠ []) : Valid S K p := by
  obtain ⟨rest, rfl⟩ := hpre
  refine ⟨hp, ?_, ?_⟩
  · have := h.length
    rw [List.length_append] at this
    omega
  · have hh := h.head
    rw [List.head?_append_of_ne_nil _ hp] at hh
    exact hh

/-- A pruned tree is pruned except along any path. -/
theorem PrunedBut.weaken (h : PrunedBut S K inner leaf 0 q words) (n : Nat) (q' : List ι) :
    PrunedBut S K inner leaf n q' words := by
  refine ⟨?_, h.leaf⟩
  intro p hp hlen hne
  obtain ⟨hin, ⟨h0, _⟩ | hleaf⟩ := h.inner p hp hlen hne
  · exact absurd (List.eq_nil_of_length_eq_zero (by omega)) hp.ne_nil
  · exact ⟨hin, Or.inr hleaf⟩

/-- A new inner word on the way to a leaf that is to come. -/
theorem PrunedBut.link (h : PrunedBut S K inner leaf n q words) (hset : Sets S K p w words words')
    (hw : inner w) (hp : p <+: q) (hn : p.length ≤ n) (hlen : p.length < K) :
    PrunedBut S K inner leaf n q words' := by
  refine ⟨?_, ?_⟩
  · intro p1 hp1 hlen1 hne
    by_cases he : p1 = p
    · subst he
      rw [hset.1]
      exact ⟨hw, Or.inl ⟨hn, hp⟩⟩
    rw [hset.2 p1 hp1 he] at hne ⊢
    obtain ⟨hin, hup | ⟨p', hlen', hpre, hne'⟩⟩ := h.inner p1 hp1 hlen1 hne
    · exact ⟨hin, Or.inl hup⟩
    · refine ⟨hin, Or.inr ⟨p', hlen', hpre, ?_⟩⟩
      rw [hset.2 p' (hp1.below hpre hlen'.le) (by rintro rfl; omega)]
      exact hne'
  · intro p1 hp1 hlen1 hne
    rw [hset.2 p1 hp1 (by rintro rfl; omega)] at hne ⊢
    exact h.leaf p1 hp1 hlen1 hne

/-- The leaf at the end of the path is set, and the words above it are needed. -/
theorem PrunedBut.set_leaf (h : PrunedBut S K inner leaf n q words)
    (hset : Sets S K q w words words') (hlen : q.length = K) (hw : leaf w) (h0 : w ≠ 0) :
    PrunedBut S K inner leaf 0 q words' := by
  refine ⟨?_, ?_⟩
  · intro p1 hp1 hlen1 hne
    rw [hset.2 p1 hp1 (by rintro rfl; omega)] at hne ⊢
    obtain ⟨hin, ⟨_, hpre⟩ | ⟨p', hlen', hpre, hne'⟩⟩ := h.inner p1 hp1 hlen1 hne
    · refine ⟨hin, Or.inr ⟨q, hlen, hpre, ?_⟩⟩
      rw [hset.1]
      exact h0
    · refine ⟨hin, Or.inr ⟨p', hlen', hpre, ?_⟩⟩
      by_cases he : p' = q
      · rw [he, hset.1]
        exact h0
      · rw [hset.2 p' (hp1.below hpre hlen'.le) he]
        exact hne'
  · intro p1 hp1 hlen1 hne
    by_cases he : p1 = q
    · rw [he, hset.1]
      exact hw
    · rw [hset.2 p1 hp1 he] at hne ⊢
      exact h.leaf p1 hp1 hlen1 hne

/-- A leaf is cleared, and the words above it may be needed no longer. -/
theorem PrunedBut.clear_leaf (h : PrunedBut S K inner leaf 0 q words)
    (hset : Sets S K q 0 words words') (hlen : q.length = K) :
    PrunedBut S K inner leaf (K - 1) q words' := by
  refine ⟨?_, ?_⟩
  · intro p1 hp1 hlen1 hne
    rw [hset.2 p1 hp1 (by rintro rfl; omega)] at hne ⊢
    obtain ⟨hin, ⟨h0, _⟩ | ⟨p', hlen', hpre, hne'⟩⟩ := h.inner p1 hp1 hlen1 hne
    · exact absurd (List.eq_nil_of_length_eq_zero (by omega)) hp1.ne_nil
    · refine ⟨hin, ?_⟩
      by_cases he : p' = q
      · left
        exact ⟨by omega, he ▸ hpre⟩
      · right
        refine ⟨p', hlen', hpre, ?_⟩
        rw [hset.2 p' (hp1.below hpre hlen'.le) he]
        exact hne'
  · intro p1 hp1 hlen1 hne
    by_cases he : p1 = q
    · rw [he, hset.1] at hne
      exact absurd rfl hne
    · rw [hset.2 p1 hp1 he] at hne ⊢
      exact h.leaf p1 hp1 hlen1 hne

/-- The last word that may be needed no longer is needed after all when a word below it is in use. -/
theorem PrunedBut.keep (h : PrunedBut S K inner leaf p.length q words) (hp : Valid S K p)
    (hpre : p <+: q) (hlen : p.length < K) {j : ι} (hj : words (p ++ [j]) ≠ 0) :
    PrunedBut S K inner leaf (p.length - 1) q words := by
  refine ⟨?_, h.leaf⟩
  intro p1 hp1 hlen1 hne
  obtain ⟨hin, ⟨hn, hpre1⟩ | hleaf⟩ := h.inner p1 hp1 hlen1 hne
  swap
  · exact ⟨hin, Or.inr hleaf⟩
  by_cases he : p1.length = p.length
  swap
  · exact ⟨hin, Or.inl ⟨by omega, hpre1⟩⟩
  have heq : p1 = p := (List.prefix_of_prefix_length_le hpre1 hpre hn).eq_of_length he
  subst heq
  have hjlen : (p1 ++ [j]).length = p1.length + 1 := by simp
  refine ⟨hin, Or.inr ?_⟩
  by_cases hK : p1.length + 1 = K
  · exact ⟨p1 ++ [j], by omega, List.prefix_append _ _, hj⟩
  · have hbelow := hp1.below (List.prefix_append p1 [j]) (by omega)
    obtain ⟨_, ⟨hlong, _⟩ | ⟨p', hlen', hpre', hne'⟩⟩ := h.inner _ hbelow (by omega) hj
    · omega
    · exact ⟨p', hlen', (List.prefix_append _ _).trans hpre', hne'⟩

/-- Or it is cleared. -/
theorem PrunedBut.prune (h : PrunedBut S K inner leaf p.length q words)
    (hset : Sets S K p 0 words words') (hpre : p <+: q) (hlen : p.length < K) :
    PrunedBut S K inner leaf (p.length - 1) q words' := by
  refine ⟨?_, ?_⟩
  · intro p1 hp1 hlen1 hne
    have he : p1 ≠ p := by
      rintro rfl
      exact hne hset.1
    rw [hset.2 p1 hp1 he] at hne ⊢
    obtain ⟨hin, ⟨hn, hpre1⟩ | ⟨p', hlen', hpre', hne'⟩⟩ := h.inner p1 hp1 hlen1 hne
    · refine ⟨hin, Or.inl ⟨?_, hpre1⟩⟩
      have hne_len : p1.length ≠ p.length := fun hl =>
        he ((List.prefix_of_prefix_length_le hpre1 hpre hn).eq_of_length hl)
      omega
    · refine ⟨hin, Or.inr ⟨p', hlen', hpre', ?_⟩⟩
      rw [hset.2 p' (hp1.below hpre' hlen'.le) (by rintro rfl; omega)]
      exact hne'
  · intro p1 hp1 hlen1 hne
    rw [hset.2 p1 hp1 (by rintro rfl; omega)] at hne ⊢
    exact h.leaf p1 hp1 hlen1 hne

end PrunedPaths
