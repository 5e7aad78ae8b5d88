import ModuleGraph.Traversal.AllPaths
import Mathlib.Data.Finset.Dedup
import Mathlib.Data.Finset.Order
import Mathlib.Data.List.Lex
import Mathlib.Data.List.Nodup
import Mathlib.Tactic.Common

/-!
# Walks along the edges of a table

`Before` is the lexicographic order on key sequences by which walks are compared. `EdgeTable.Walk`
says that a path leads from one module to another along edges of a table, where every step carries
the cause that the table gives for it. The two readings of a walk, from its first and from its last
module, are joined by `Walk.snoc` and `Walk.snoc_induction`.

A table is acyclic when its modules can be ranked so that every edge leads downwards. Then no walk
comes back to a module, and recursion along edges ends in both directions.
-/
namespace ModuleGraph

/-- Key sequences in lexicographic order, where a sequence comes before what extends it. -/
abbrev Before : List Key → List Key → Prop := List.Lex (compare · · = .lt)

namespace Before

theorem trans {u v w : List Key} (h : Before u v) (h' : Before v w) : Before u w :=
  List.lex_trans (fun h h' => Std.TransCmp.lt_trans h h') h h'

theorem irrefl (u : List Key) : ¬ Before u u :=
  List.lex_irrefl (fun k => by simp) u

theorem asymm {u v : List Key} (h : Before u v) : ¬ Before v u :=
  fun h' => irrefl u (h.trans h')

theorem trichotomy (u v : List Key) : Before u v ∨ u = v ∨ Before v u := by
  induction u generalizing v with
  | nil => cases v <;> simp
  | cons k u ih =>
    cases v with
    | nil => exact .inr (.inr .nil)
    | cons l v =>
      cases h : compare k l with
      | lt => exact .inl (.rel h)
      | gt => exact .inr (.inr (.rel (Std.OrientedCmp.gt_iff_lt.1 h)))
      | eq =>
        obtain rfl := Std.LawfulEqCmp.compare_eq_iff_eq.1 h
        rcases ih v with h | rfl | h
        · exact .inl (.cons h)
        · exact .inr (.inl rfl)
        · exact .inr (.inr (.cons h))

theorem append {u v : List Key} (h : Before u v) (hp : ¬ u <+: v) (x y : List Key) :
    Before (u ++ x) (v ++ y) := by
  induction h with
  | nil => simp at hp
  | rel h => exact .rel h
  | cons h ih => exact .cons (ih (by simpa using hp))

theorem append_left {v w : List Key} (h : Before v w) (u : List Key) : Before (u ++ v) (u ++ w) :=
  List.Lex.append_left _ h u

theorem append_of_length_eq {u v : List Key} (h : Before u v) (hl : u.length = v.length)
    (x y : List Key) : Before (u ++ x) (v ++ y) :=
  h.append (fun hp => irrefl v (hp.eq_of_length hl ▸ h)) x y

theorem extension (u : List Key) (k : Key) : Before u (u ++ [k]) := by
  simpa using append_left (List.Lex.nil : Before [] [k]) u

/-- Between a sequence and its extension by one key stand only extensions of the sequence. -/
theorem isPrefix_of_between {u v : List Key} {k : Key} (h : Before u v)
    (h' : Before v (u ++ [k])) : u <+: v := by
  by_contra hp
  exact h'.asymm (by simpa using h.append hp [k] [])

end Before

namespace Path

def cons (k : Key) (c : Cause) (p : Path) : Path := ⟨k :: p.nodes, c :: p.causes⟩

@[simp] theorem nodes_single (k : Key) : (single k).nodes = [k] := rfl

@[simp] theorem causes_single (k : Key) : (single k).causes = [] := rfl

@[simp] theorem nodes_cons (k : Key) (c : Cause) (p : Path) :
    (p.cons k c).nodes = k :: p.nodes := rfl

@[simp] theorem causes_cons (k : Key) (c : Cause) (p : Path) :
    (p.cons k c).causes = c :: p.causes := rfl

@[simp] theorem nodes_extend (p : Path) (e : Edge) :
    (p.extend e).nodes = p.nodes ++ [e.target] := rfl

@[simp] theorem causes_extend (p : Path) (e : Edge) :
    (p.extend e).causes = p.causes ++ [e.cause] := rfl

@[simp] theorem length_single (k : Key) : (single k).length = 1 := rfl

@[simp] theorem length_extend (p : Path) (e : Edge) : (p.extend e).length = p.length + 1 := by
  simp [length]

/-- Two walks joined at the module where the first ends and the second starts. -/
def append (p q : Path) : Path := ⟨p.nodes ++ q.nodes.tail, p.causes ++ q.causes⟩

@[simp] theorem append_single (p : Path) (k : Key) : p.append (.single k) = p := by
  simp [append]

theorem single_append {k : Key} (q : Path) (h : ∃ ks, q.nodes = k :: ks) :
    (single k).append q = q := by
  obtain ⟨ks, hks⟩ := h
  cases q; simp_all [append]

theorem append_cons (p q : Path) (k : Key) {e : Edge} (h : ∃ ks, q.nodes = e.target :: ks) :
    p.append (q.cons k e.cause) = (p.extend e).append q := by
  obtain ⟨ks, hks⟩ := h
  simp [append, cons, extend, hks]

end Path

namespace EdgeTable

def Step (t : EdgeTable) (k l : Key) : Prop := ∃ e ∈ t.edges k, e.target = l

/-- A path that leads from one module to another along edges, each step with its cause. -/
inductive Walk (t : EdgeTable) : Key → Key → Path → Prop
  | single (k : Key) : Walk t k k (.single k)
  | cons {k l : Key} {e : Edge} {p : Path} :
      e ∈ t.edges k → Walk t e.target l p → Walk t k l (p.cons k e.cause)

def Leads (t : EdgeTable) (k l : Key) : Prop := ∃ p, t.Walk k l p

def Ordered (t : EdgeTable) : Prop :=
  ∀ k, (t.edges k).Pairwise (fun e f => compare e.target f.target = .lt)

/-- The modules can be ranked so that every edge leads to a lower rank. -/
def Acyclic (t : EdgeTable) : Prop := ∃ rank : Key → ℕ, ∀ k l, t.Step k l → rank l < rank k

variable {t : EdgeTable} {a b c : Key} {p q : Path}

theorem mem_of_step {k l : Key} (h : t.Step k l) : k ∈ t := by
  obtain ⟨e, he, -⟩ := h
  by_contra hk
  simp [edges_eq_nil hk] at he

theorem mem_onward {x y : Arrival} :
    y ∈ t.onward x ↔ ∃ e ∈ t.edges x.key, y = ⟨e.target, x.path.extend e⟩ := by
  simp [onward, eq_comm]

theorem Ordered.eq_of_target (ht : t.Ordered) {k : Key} {e f : Edge} (he : e ∈ t.edges k)
    (hf : f ∈ t.edges k) (h : e.target = f.target) : e = f := by
  have hn : ((t.edges k).map Edge.target).Nodup := by
    refine List.pairwise_map.2 ((ht k).imp fun {e f} hlt heq => ?_)
    simp [heq] at hlt
  exact List.inj_on_of_nodup_map hn he hf h

namespace Walk

theorem exists_nodes (h : t.Walk a b p) : ∃ ks, p.nodes = a :: ks := by
  cases h with
  | single => exact ⟨[], rfl⟩
  | cons _ _ => exact ⟨_, rfl⟩

theorem head_mem (h : t.Walk a b p) : a ∈ p.nodes := by
  obtain ⟨ks, hks⟩ := h.exists_nodes
  simp [hks]

theorem last? (h : t.Walk a b p) : p.last? = some b := by
  induction h with
  | single => rfl
  | cons he h ih =>
    obtain ⟨ks, hks⟩ := h.exists_nodes
    simp only [Path.last?, Path.nodes_cons, hks, List.getLast?_cons_cons] at ih ⊢
    exact ih

theorem last_mem (h : t.Walk a b p) : b ∈ p.nodes := List.mem_of_getLast? h.last?

theorem length_nodes (h : t.Walk a b p) : p.nodes.length = p.causes.length + 1 := by
  induction h with
  | single => rfl
  | cons _ _ ih => simp [ih]

theorem snoc (h : t.Walk a b p) {e : Edge} (he : e ∈ t.edges b) :
    t.Walk a e.target (p.extend e) := by
  induction h with
  | single k => exact .cons he (.single _)
  | cons hf _ ih => exact .cons hf (ih he)

theorem append (h : t.Walk a b p) (h' : t.Walk b c q) : t.Walk a c (p.append q) := by
  induction h with
  | single k => exact (q.single_append h'.exists_nodes).symm ▸ h'
  | cons he _ ih => exact .cons he (ih h')

/-- Induction on a walk from its end. -/
theorem snoc_induction {motive : Key → Path → Prop} (single : motive a (.single a))
    (snoc : ∀ b p, ∀ e ∈ t.edges b, t.Walk a b p → motive b p → motive e.target (p.extend e))
    (h : t.Walk a b p) : motive b p := by
  have key : ∀ {c d : Key} {q : Path}, t.Walk c d q → ∀ {r : Path}, t.Walk a c r → motive c r →
      motive d (r.append q) := by
    intro c d q hq
    induction hq with
    | single k => intro r _ hr; simpa using hr
    | @cons k l e q he hq ih =>
      intro r hw hr
      rw [r.append_cons q k hq.exists_nodes]
      exact ih (hw.snoc he) (snoc k r e he hw hr)
  simpa only [p.single_append h.exists_nodes] using key h (.single a) single

theorem eq_single_or_snoc (h : t.Walk a b p) :
    p = .single a ∧ b = a ∨
      ∃ c q, ∃ e ∈ t.edges c, t.Walk a c q ∧ e.target = b ∧ p = q.extend e := by
  refine h.snoc_induction (motive := fun b p => p = .single a ∧ b = a ∨
    ∃ c q, ∃ e ∈ t.edges c, t.Walk a c q ∧ e.target = b ∧ p = q.extend e) (.inl ⟨rfl, rfl⟩) ?_
  intro c q e he hq _
  exact .inr ⟨c, q, e, he, hq, rfl, rfl⟩

theorem eq_of_nodes (ht : t.Ordered) {a' b' : Key} (h : t.Walk a b p) (h' : t.Walk a' b' q)
    (hn : p.nodes = q.nodes) : p = q := by
  induction h generalizing a' q with
  | single k =>
    cases h' with
    | single => simp_all
    | cons _ h' =>
      obtain ⟨ks, hks⟩ := h'.exists_nodes
      simp [hks] at hn
  | @cons k l e p he h ih =>
    cases h' with
    | single =>
      obtain ⟨ks, hks⟩ := h.exists_nodes
      simp [hks] at hn
    | @cons _ _ f q hf h' =>
      obtain ⟨rfl, hpq⟩ := List.cons.inj hn
      obtain ⟨ks, hks⟩ := h.exists_nodes
      obtain ⟨ls, hls⟩ := h'.exists_nodes
      obtain rfl : e = f := ht.eq_of_target he hf (by simp_all)
      rw [ih h' hpq]

theorem rank_le {rank : Key → ℕ} (hr : ∀ k l, t.Step k l → rank l < rank k)
    (h : t.Walk a b p) : ∀ k ∈ p.nodes, rank k ≤ rank a := by
  induction h with
  | single k => simp
  | @cons k l e p he _ ih =>
    intro m hm
    rcases List.mem_cons.1 hm with rfl | hm
    · exact le_rfl
    · exact (ih m hm).trans (hr k e.target ⟨e, he, rfl⟩).le

theorem nodup (ht : t.Acyclic) (h : t.Walk a b p) : p.nodes.Nodup := by
  obtain ⟨rank, hr⟩ := ht
  induction h with
  | single k => simp
  | @cons k l e p he h ih =>
    refine List.nodup_cons.2 ⟨fun hk => ?_, ih⟩
    have hle := h.rank_le hr k hk
    have hlt := hr k e.target ⟨e, he, rfl⟩
    omega

theorem nodes_eq_of_isPrefix (ht : t.Acyclic) {a' : Key} (h : t.Walk a b p)
    (h' : t.Walk a' b q) (hp : p.nodes <+: q.nodes) : p.nodes = q.nodes := by
  obtain ⟨x, hx⟩ := hp
  have hb := h'.last?
  have hd := h'.nodup ht
  rw [Path.last?, ← hx] at hb
  rw [← hx] at hd
  rcases List.eq_nil_or_concat x with rfl | ⟨y, k, rfl⟩
  · simpa using hx
  · obtain rfl : k = b := by simpa using hb
    exact ((List.nodup_append.1 hd).2.2 k h.last_mem k (by simp) rfl).elim

theorem mem_table (hc : ∀ k l, t.Step k l → l ∈ t) (h : t.Walk a b p) (ha : a ∈ t) :
    ∀ k ∈ p.nodes, k ∈ t := by
  induction h with
  | single k => simpa using ha
  | @cons k l e p he _ ih =>
    intro m hm
    rcases List.mem_cons.1 hm with rfl | hm
    · exact ha
    · exact ih (hc k e.target ⟨e, he, rfl⟩) m hm

theorem length_le_size (ht : t.Acyclic) (hc : ∀ k l, t.Step k l → l ∈ t) (h : t.Walk a b p)
    (ha : a ∈ t) : p.length ≤ t.size := by
  have hle := ((h.nodup ht).subperm (h.mem_table hc ha)).length_le
  simpa [Path.length, SortedMap.size, SortedMap.keys] using hle

end Walk

namespace Acyclic

theorem wellFounded_children (ht : t.Acyclic) : WellFounded fun l k => t.Step k l := by
  obtain ⟨rank, hr⟩ := ht
  exact Subrelation.wf (fun h => hr _ _ h) (measure rank).wf

theorem wellFounded_parents (ht : t.Acyclic) : WellFounded t.Step := by
  obtain ⟨rank, hr⟩ := ht
  obtain ⟨M, hM⟩ := (t.keys.map rank).toFinset.exists_le
  have hle : ∀ k l, t.Step k l → rank k ≤ M := fun k l h =>
    hM _ (by simpa using ⟨k, mem_of_step h, rfl⟩)
  refine Subrelation.wf (fun {k l} h => ?_) (measure fun k => M - rank k).wf
  have hk := hle k l h
  have hl := hr k l h
  change M - rank k < M - rank l
  omega

end Acyclic

end EdgeTable

end ModuleGraph
