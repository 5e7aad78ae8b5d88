import ModuleGraph.Proofs.Answer
import ModuleGraph.Proofs.RecursiveListing

/-!
# Forests in pre-order

In a listing that starts with a root and goes down one level at a time, the depths alone tell what
stands above what: an entry stands above the later ones up to the next that is not deeper. At each
level above an entry there is one such entry, and it is reached from parent to parent. The visits
of a survey go down one level at a time, so every surveyed tree is such a listing.
-/
namespace ModuleGraph

namespace Tree

/-- The first entry is a root, and each next one is at most one level deeper. -/
def InPreorder (t : Tree) : Prop :=
  (∀ e ∈ t.entries.head?, e.depth = 0) ∧ t.entries.IsChain fun x y => y.depth ≤ x.depth + 1

instance (t : Tree) : Decidable t.InPreorder := inferInstanceAs (Decidable (_ ∧ _))

/-- From one entry to a later one, all that follows the first is deeper. -/
def IsAbove (t : Tree) (a i : Fin t.entries.length) : Prop :=
  a < i ∧ ∀ j, a < j → j ≤ i → (t.entries.get a).depth < (t.entries.get j).depth

def IsParent (t : Tree) (p i : Fin t.entries.length) : Prop :=
  t.IsAbove p i ∧ (t.entries.get i).depth = (t.entries.get p).depth + 1

def HasLaterSibling (t : Tree) (i : Fin t.entries.length) : Prop :=
  ∃ p k, t.IsParent p i ∧ t.IsParent p k ∧ i < k

instance (t : Tree) (a i : Fin t.entries.length) : Decidable (t.IsAbove a i) :=
  inferInstanceAs (Decidable (_ ∧ _))

instance (t : Tree) (p i : Fin t.entries.length) : Decidable (t.IsParent p i) :=
  inferInstanceAs (Decidable (_ ∧ _))

instance (t : Tree) (i : Fin t.entries.length) : Decidable (t.HasLaterSibling i) :=
  inferInstanceAs (Decidable (∃ _, _))

variable {t : Tree} {a b i k p : Fin t.entries.length}

namespace IsAbove

theorem depth_lt (h : t.IsAbove a i) : (t.entries.get a).depth < (t.entries.get i).depth :=
  h.2 i h.1 le_rfl

theorem trans (hab : t.IsAbove a b) (hbi : t.IsAbove b i) : t.IsAbove a i := by
  refine ⟨hab.1.trans hbi.1, fun j haj hji => ?_⟩
  rcases le_or_gt j b with hjb | hbj
  · exact hab.2 j haj hjb
  · exact hab.depth_lt.trans (hbi.2 j hbj hji)

theorem of_depth_lt (ha : t.IsAbove a i) (hb : t.IsAbove b i)
    (hlt : (t.entries.get a).depth < (t.entries.get b).depth) : t.IsAbove a b := by
  rcases lt_trichotomy a b with hab | rfl | hba
  · exact ⟨hab, fun j haj hjb => ha.2 j haj (hjb.trans hb.1.le)⟩
  · exact absurd hlt (lt_irrefl _)
  · exact absurd hlt (hb.2 a hba ha.1.le).asymm

theorem eq_of_depth_eq (ha : t.IsAbove a i) (hb : t.IsAbove b i)
    (heq : (t.entries.get a).depth = (t.entries.get b).depth) : a = b := by
  rcases lt_trichotomy a b with hab | rfl | hba
  · exact absurd heq (ha.2 b hab hb.1.le).ne
  · rfl
  · exact absurd heq (hb.2 a hba ha.1.le).ne'

end IsAbove

theorem isAbove_succ_iff (hik : i.val + 1 = k.val) :
    t.IsAbove a k ↔
      (a = i ∨ t.IsAbove a i) ∧ (t.entries.get a).depth < (t.entries.get k).depth := by
  constructor
  · intro h
    refine ⟨?_, h.depth_lt⟩
    have hle : a ≤ i := Nat.le_of_lt_succ (Nat.lt_of_lt_of_eq h.1 hik.symm)
    rcases hle.eq_or_lt with heq | hlt
    · exact .inl heq
    · exact .inr ⟨hlt, fun j haj hji => h.2 j haj (by omega)⟩
  · rintro ⟨hai, hdepth⟩
    have hle : a ≤ i := hai.elim le_of_eq fun h => h.1.le
    refine ⟨by omega, fun j haj hjk => ?_⟩
    rcases hjk.eq_or_lt with rfl | hjk
    · exact hdepth
    · rcases hai with rfl | hai
      · omega
      · exact hai.2 j haj (by omega)

namespace InPreorder

variable (h : t.InPreorder)

include h

theorem depth_zero (hi : i.val = 0) : (t.entries.get i).depth = 0 := by
  refine h.1 _ ?_
  rw [List.head?_eq_getElem?]
  simp [hi]

theorem depth_succ_le (hik : i.val + 1 = k.val) :
    (t.entries.get k).depth ≤ (t.entries.get i).depth + 1 := by
  have hstep := List.isChain_iff_getElem.1 h.2 i.val (by omega)
  simpa only [List.get_eq_getElem, ← hik] using hstep

/-- At each level above an entry stands one entry: the last one there so far. -/
theorem exists_isAbove {level : ℕ} (hlevel : level < (t.entries.get i).depth) :
    ∃ a, t.IsAbove a i ∧ (t.entries.get a).depth = level := by
  obtain ⟨n, hn⟩ := i
  induction n with
  | zero => exact absurd hlevel (by rw [h.depth_zero rfl]; omega)
  | succ n ih =>
    let before : Fin t.entries.length := ⟨n, by omega⟩
    have hle : level ≤ (t.entries.get before).depth :=
      Nat.le_of_lt_succ (hlevel.trans_le (h.depth_succ_le rfl))
    rcases hle.eq_or_lt with heq | hlt
    · exact ⟨before, (isAbove_succ_iff rfl).2 ⟨.inl rfl, heq.symm.trans_lt hlevel⟩, heq.symm⟩
    · obtain ⟨a, ha, heq⟩ := ih before.isLt hlt
      exact ⟨a, (isAbove_succ_iff rfl).2 ⟨.inr ha, heq.trans_lt hlevel⟩, heq⟩

theorem exists_isParent (hi : 0 < (t.entries.get i).depth) : ∃ p, t.IsParent p i := by
  have hlevel : (t.entries.get i).depth - 1 < (t.entries.get i).depth := by omega
  obtain ⟨p, hp, hdepth⟩ := h.exists_isAbove hlevel
  exact ⟨p, hp, by omega⟩

/-- What stands above an entry is its parent, the parent of that one, and so on. -/
theorem isAbove_iff_transGen : t.IsAbove a i ↔ Relation.TransGen t.IsParent a i := by
  constructor
  · intro ha
    induction hd : (t.entries.get i).depth using Nat.strong_induction_on generalizing i with
    | _ d ih =>
    have hlt := ha.depth_lt
    obtain ⟨p, hp⟩ := h.exists_isParent (i := i) (by omega)
    have hle : (t.entries.get a).depth ≤ (t.entries.get p).depth :=
      Nat.le_of_lt_succ (hlt.trans_eq hp.2)
    rcases hle.eq_or_lt with heq | hap
    · exact ha.eq_of_depth_eq hp.1 heq ▸ .single hp
    · exact (ih _ (hd ▸ hp.1.depth_lt) (ha.of_depth_lt hp.1 hap) rfl).tail hp
  · intro ha
    induction ha with
    | single hp => exact hp.1
    | tail _ hp ih => exact ih.trans hp.1

theorem hasLaterSibling_iff (hi : 0 < (t.entries.get i).depth) :
    t.HasLaterSibling i ↔ ∃ k, i < k ∧ (t.entries.get k).depth = (t.entries.get i).depth ∧
      ∀ j, i < j → j < k → (t.entries.get i).depth ≤ (t.entries.get j).depth := by
  constructor
  · rintro ⟨p, k, hpi, hpk, hik⟩
    refine ⟨k, hik, hpk.2.trans hpi.2.symm, fun j hij hjk => ?_⟩
    have hpj := hpk.1.2 j (hpi.1.1.trans hij) hjk.le
    rw [hpi.2]
    exact hpj
  · rintro ⟨k, hik, hdepth, hbetween⟩
    obtain ⟨p, hp⟩ := h.exists_isParent hi
    refine ⟨p, k, hp, ⟨⟨hp.1.1.trans hik, fun j hpj hjk => ?_⟩, hdepth.trans hp.2⟩, hik⟩
    have hpi := hp.1.depth_lt
    rcases le_or_gt j i with hji | hij
    · exact hp.1.2 j hpj hji
    · rcases hjk.eq_or_lt with rfl | hjk
      · exact hdepth ▸ hpi
      · exact hpi.trans_le (hbetween j hij hjk)

end InPreorder

end Tree

structure PreorderFrom (level : ℕ) (es : List Entry) : Prop where
  head : ∀ e ∈ es.head?, e.depth = level
  ge : ∀ e ∈ es, level ≤ e.depth
  chain : es.IsChain fun x y => y.depth ≤ x.depth + 1

namespace PreorderFrom

variable {level : ℕ} {e : Entry} {es fs : List Entry}

theorem nil (level : ℕ) : PreorderFrom level [] := ⟨by simp, by simp, .nil⟩

theorem append (hes : PreorderFrom level es) (hfs : PreorderFrom level fs) :
    PreorderFrom level (es ++ fs) := by
  refine ⟨fun e he => ?_, fun e he => ?_, List.isChain_append.2 ⟨hes.chain, hfs.chain, ?_⟩⟩
  · cases es with
    | nil => exact hfs.head e he
    | cons x es => exact hes.head e he
  · exact (List.mem_append.1 he).elim (hes.ge e) (hfs.ge e)
  · intro x hx y hy
    have hxl := hes.ge x (List.mem_of_getLast? hx)
    have hyl := hfs.head y hy
    omega

theorem cons (he : e.depth = level) (hes : PreorderFrom (level + 1) es) :
    PreorderFrom level (e :: es) := by
  refine ⟨by simpa using he, ?_, List.isChain_cons.2 ⟨fun y hy => ?_, hes.chain⟩⟩
  · rintro x (_ | ⟨_, hx⟩)
    · exact he.ge
    · exact (Nat.le_succ level).trans (hes.ge x hx)
  · rw [hes.head y hy, he]

end PreorderFrom

namespace EdgeTable

variable {t : EdgeTable} {depth : ℕ}

theorem preorderFrom_visitEach {level : ℕ}
    {visit : Edge → SortedSet Key → List Entry × SortedSet Key}
    (hvisit : ∀ e seen, PreorderFrom level (visit e seen).1) (es : List Edge)
    (seen : SortedSet Key) : PreorderFrom level (visitEach visit es seen).1 := by
  induction es generalizing seen with
  | nil => exact .nil level
  | cons e es ih => exact (hvisit e seen).append (ih _)

theorem preorderFrom_visit (t : EdgeTable) (depth : ℕ) (k : Key) (level : ℕ)
    (cause : Option Cause) (seen : SortedSet Key) :
    PreorderFrom level (t.visit depth k level cause seen).1 := by
  induction hroom : depth - level using Nat.strong_induction_on
    generalizing k level cause seen with
  | _ room ih =>
  rw [visit]
  by_cases hlevel : level < depth
  · rw [if_pos hlevel]
    by_cases hopen : k ∉ seen ∧ level + 1 < depth
    · rw [if_pos hopen]
      refine .cons rfl (preorderFrom_visitEach (fun e seen => ?_) _ _)
      exact ih (depth - (level + 1)) (by omega) e.target (level + 1) (some e.cause) seen rfl
    · rw [if_neg hopen]
      exact .cons rfl (.nil _)
  · rw [if_neg hlevel]
    exact .nil level

theorem preorderFrom_flatMap (t : EdgeTable) (depth : ℕ) (roots : List Key) :
    PreorderFrom 0 (roots.flatMap (t.treeOf depth)) := by
  induction roots with
  | nil => exact .nil 0
  | cons root roots ih =>
    rw [List.flatMap_cons, treeOf_eq_visit]
    exact (t.preorderFrom_visit depth root 0 none ∅).append ih

theorem inPreorder_tree (t : EdgeTable) (roots : List Key) (depth : ℕ) :
    (t.tree roots depth).InPreorder :=
  have h := t.preorderFrom_flatMap depth roots.eraseDups
  ⟨h.head, h.chain⟩

end EdgeTable

theorem Survey.inPreorder_of_tree {s : Survey} {roots : List Key} {depth : ℕ} {t : Tree}
    (h : (s.tree roots depth).result = .ok t) : t.InPreorder := by
  rw [tree, Answer.result_bind] at h
  cases hcheck : (s.check .treeTraversal !roots.isEmpty).result with
  | error e =>
    rw [hcheck] at h
    cases h
  | ok =>
    rw [hcheck] at h
    cases h
    exact s.table.inPreorder_tree roots depth

end ModuleGraph
