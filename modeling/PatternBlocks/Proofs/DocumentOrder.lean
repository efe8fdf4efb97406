import PatternBlocks.Proofs.Replacement
import PatternBlocks.Proofs.Writable

/-!
The blocks of a list in the order in which their texts begin, each with the steps that lead to it.
The steps that lead somewhere are all there, and they come in lexicographic order.
-/
namespace PatternBlocks

namespace Path

/-- A position comes before another one in its list, or in an earlier branch. -/
def Step.Before : Step → Step → Prop
  | .child i, .child j => i < j
  | .branch b i, .branch c j => b < c ∨ b = c ∧ i < j
  | _, _ => False

/-- Document order. A path comes before the ones that lead on from its end. -/
def Before (p q : Path) : Prop := List.Lex Step.Before p.steps q.steps

end Path

namespace Block

mutual

/-- The block and the blocks inside it with the steps that lead to them. -/
def walks : Block → List (List Path.Step × Block)
  | .group capturing name children q =>
    ([], .group capturing name children q) :: walksFrom .child 0 children
  | .look direction positive children q =>
    ([], .look direction positive children q) :: walksFrom .child 0 children
  | .alternation branches q => ([], .alternation branches q) :: walksFromBranches 0 branches
  | b => [([], b)]

/-- The walks that enter a list at the position `i` or behind it. -/
def walksFrom (step : Nat → Path.Step) (i : Nat) : List Block → List (List Path.Step × Block)
  | [] => []
  | b :: bs => b.walks.map (fun w => (step i :: w.1, w.2)) ++ walksFrom step (i + 1) bs

/-- The walks that enter the branch `k` or a later one. -/
def walksFromBranches (k : Nat) : List (List Block) → List (List Path.Step × Block)
  | [] => []
  | branch :: branches => walksFrom (.branch k) 0 branch ++ walksFromBranches (k + 1) branches

end

mutual

theorem map_snd_walks : (b : Block) → b.walks.map Prod.snd = b.nodes
  | .literal .. | .shorthand .. | .anchor _ | .boundary .. | .charClass .. | .backref .. => rfl
  | .group _ _ children _ | .look _ _ children _ =>
    congrArg (_ :: ·) (map_snd_walksFrom .child 0 children)
  | .alternation branches _ => congrArg (_ :: ·) (map_snd_walksFromBranches 0 branches)

theorem map_snd_walksFrom (step : Nat → Path.Step) (i : Nat) :
    (bs : List Block) → (walksFrom step i bs).map Prod.snd = nodesOfAll bs
  | [] => rfl
  | b :: bs => by
    rw [walksFrom, nodesOfAll, List.map_append, List.map_map, map_snd_walksFrom step (i + 1) bs,
      ← map_snd_walks b]
    rfl

theorem map_snd_walksFromBranches (k : Nat) : (branches : List (List Block)) →
    (walksFromBranches k branches).map Prod.snd = nodesOfBranches branches
  | [] => rfl
  | branch :: branches => by
    rw [walksFromBranches, List.map_append, map_snd_walksFrom _ 0 branch,
      map_snd_walksFromBranches (k + 1) branches]
    rfl

end

/-! ### Walks are the ways to blocks -/

section Walks

variable {b x : Block} {bs : List Block} {branches : List (List Block)} {s : Path.Step}
  {p : List Path.Step}

theorem mem_walksFrom {step : Nat → Path.Step} {i : Nat} :
    (p, x) ∈ walksFrom step i bs ↔
      ∃ j c rest, bs[j]? = some c ∧ p = step (i + j) :: rest ∧ (rest, x) ∈ c.walks := by
  induction bs generalizing i with
  | nil => simp [walksFrom]
  | cons b bs ih =>
    rw [walksFrom, List.mem_append, ih, List.mem_map]
    constructor
    · rintro (⟨⟨rest, y⟩, hw, heq⟩ | ⟨j, c, rest, hc, rfl, hw⟩)
      · cases heq
        exact ⟨0, b, rest, rfl, rfl, hw⟩
      · refine ⟨j + 1, c, rest, hc, ?_, hw⟩
        rw [Nat.add_right_comm, Nat.add_assoc]
    · rintro ⟨j, c, rest, hc, rfl, hw⟩
      cases j with
      | zero =>
        cases hc
        exact .inl ⟨(rest, x), hw, rfl⟩
      | succ j =>
        refine .inr ⟨j, c, rest, hc, ?_, hw⟩
        rw [Nat.add_right_comm, Nat.add_assoc]

theorem mem_walksFromBranches {k : Nat} :
    (p, x) ∈ walksFromBranches k branches ↔
      ∃ j branch, branches[j]? = some branch ∧ (p, x) ∈ walksFrom (.branch (k + j)) 0 branch := by
  induction branches generalizing k with
  | nil => simp [walksFromBranches]
  | cons branch branches ih =>
    rw [walksFromBranches, List.mem_append, ih]
    constructor
    · rintro (hw | ⟨j, branch, hbranch, hw⟩)
      · exact ⟨0, branch, rfl, hw⟩
      · refine ⟨j + 1, branch, hbranch, ?_⟩
        rwa [← Nat.add_assoc, Nat.add_right_comm]
    · rintro ⟨j, branch', hbranch, hw⟩
      cases j with
      | zero =>
        cases hbranch
        exact .inl hw
      | succ j =>
        refine .inr ⟨j, branch', hbranch, ?_⟩
        rwa [Nat.add_right_comm, Nat.add_assoc]

theorem mem_walks_nil : ([], x) ∈ b.walks ↔ b = x := by
  have hlist (step : Nat → Path.Step) (i : Nat) (bs : List Block) :
      ([], x) ∉ walksFrom step i bs := by
    intro h
    obtain ⟨j, c, rest, -, heq, -⟩ := mem_walksFrom.mp h
    cases heq
  have hbranches (branches : List (List Block)) : ([], x) ∉ walksFromBranches 0 branches := by
    intro h
    obtain ⟨j, branch, -, h⟩ := mem_walksFromBranches.mp h
    exact hlist _ _ _ h
  cases b <;> simp [walks, hlist, hbranches, eq_comm]

theorem mem_walksFrom_cons {step : Nat → Path.Step} :
    (s :: p, x) ∈ walksFrom step 0 bs ↔
      ∃ i c, s = step i ∧ bs[i]? = some c ∧ (p, x) ∈ c.walks := by
  rw [mem_walksFrom]
  constructor
  · rintro ⟨i, c, rest, hc, heq, hw⟩
    cases heq
    exact ⟨i, c, by rw [Nat.zero_add], hc, hw⟩
  · rintro ⟨i, c, rfl, hc, hw⟩
    exact ⟨i, c, p, hc, by rw [Nat.zero_add], hw⟩

theorem mem_walks_cons :
    (s :: p, x) ∈ b.walks ↔ ∃ c, b.child? s = some c ∧ (p, x) ∈ c.walks := by
  have hlist (bs : List Block) : (s :: p, x) ∈ walksFrom .child 0 bs ↔
      ∃ c, (whole bs).child? s = some c ∧ (p, x) ∈ c.walks := by
    rw [mem_walksFrom_cons]
    cases s <;> simp [whole, child?, inside?]
  cases b with
  | group capturing name children q =>
    rw [walks, List.mem_cons, or_iff_right (by simp), hlist]
    cases s <;> rfl
  | look direction positive children q =>
    rw [walks, List.mem_cons, or_iff_right (by simp), hlist]
    cases s <;> rfl
  | alternation branches q =>
    rw [walks, List.mem_cons, or_iff_right (by simp), mem_walksFromBranches]
    simp only [mem_walksFrom_cons, Nat.zero_add]
    constructor
    · rintro ⟨k, branch, hbranch, i, c, rfl, hc, hw⟩
      exact ⟨c, by simp [child?, inside?, hbranch, hc], hw⟩
    · rintro ⟨c, hc, hw⟩
      obtain ⟨seq, i, hinside, hseq⟩ := child?_eq_some hc
      cases s with
      | child => cases hinside
      | branch k j =>
        obtain ⟨branch, hbranch, heq⟩ := Option.map_eq_some_iff.mp hinside
        cases heq
        exact ⟨k, seq, hbranch, i, c, rfl, hseq, hw⟩
  | _ => cases s <;> simp [walks, child?, inside?]

/-- The walks are the steps that lead somewhere, each with what it leads to. -/
theorem mem_walks : (p, x) ∈ b.walks ↔ b.at? p = some x := by
  induction p generalizing b with
  | nil => simp [mem_walks_nil, at?]
  | cons s p ih => simp only [mem_walks_cons, at?_cons_eq_some, ih]

/-- In a list, the walks are the paths that lead to a block. -/
theorem mem_walksFrom_child {p : Path} :
    (p.steps, x) ∈ walksFrom .child 0 bs ↔ get? bs p = some x := by
  have hwhole : (p.steps, x) ∈ (whole bs).walks ↔ (whole bs).at? p.steps = some x := mem_walks
  by_cases hp : p.steps = []
  · have hnot : ([], x) ∉ walksFrom .child 0 bs := by
      intro h
      obtain ⟨j, c, rest, -, heq, -⟩ := mem_walksFrom.mp h
      cases heq
    simp [hnot, get?, hp]
  · rw [get?_eq hp, ← hwhole, whole, walks, List.mem_cons, or_iff_right (by simp [hp])]

/-- The blocks at every depth are the ones that paths lead to. -/
theorem mem_nodesOfAll_iff : x ∈ nodesOfAll bs ↔ ∃ p, get? bs p = some x := by
  rw [← map_snd_walksFrom .child 0 bs, List.mem_map]
  constructor
  · rintro ⟨⟨steps, y⟩, hw, rfl⟩
    exact ⟨⟨steps⟩, mem_walksFrom_child.mp hw⟩
  · rintro ⟨p, hp⟩
    exact ⟨(p.steps, x), mem_walksFrom_child.mpr hp, rfl⟩

end Walks

/-! ### Document order -/

theorem child_before (i j : Nat) (h : i < j) : (Path.Step.child i).Before (.child j) := h

/-- Walks in document order. -/
def InOrder (ws : List (List Path.Step × Block)) : Prop :=
  ws.Pairwise fun v w => List.Lex Path.Step.Before v.1 w.1

theorem exists_eq_of_mem_walksFrom {step : Nat → Path.Step} {i : Nat} {bs : List Block}
    {w : List Path.Step × Block} (h : w ∈ walksFrom step i bs) :
    ∃ j rest, i ≤ j ∧ w.1 = step j :: rest := by
  obtain ⟨j, c, rest, -, heq, -⟩ := mem_walksFrom.mp h
  exact ⟨i + j, rest, Nat.le_add_right i j, heq⟩

theorem exists_eq_of_mem_walksFromBranches {k : Nat} {branches : List (List Block)}
    {w : List Path.Step × Block} (h : w ∈ walksFromBranches k branches) :
    ∃ j i rest, k ≤ j ∧ w.1 = .branch j i :: rest := by
  obtain ⟨j, branch, -, hw⟩ := mem_walksFromBranches.mp h
  obtain ⟨i, rest, -, heq⟩ := exists_eq_of_mem_walksFrom hw
  exact ⟨k + j, i, rest, Nat.le_add_right k j, heq⟩

theorem InOrder.cons_nil {ws : List (List Path.Step × Block)} (h : InOrder ws)
    (hne : ∀ w ∈ ws, ∃ s rest, w.1 = s :: rest) (b : Block) : InOrder (([], b) :: ws) := by
  refine List.pairwise_cons.mpr ⟨fun w hw => ?_, h⟩
  obtain ⟨s, rest, heq⟩ := hne w hw
  rw [heq]
  exact .nil

mutual

theorem inOrder_walks : (b : Block) → InOrder b.walks
  | .literal .. | .shorthand .. | .anchor _ | .boundary .. | .charClass .. | .backref .. =>
    List.pairwise_singleton _ _
  | .group _ _ children _ | .look _ _ children _ => by
    refine (inOrder_walksFrom child_before 0 children).cons_nil (fun w hw => ?_) _
    obtain ⟨j, rest, -, heq⟩ := exists_eq_of_mem_walksFrom hw
    exact ⟨.child j, rest, heq⟩
  | .alternation branches _ => by
    refine (inOrder_walksFromBranches 0 branches).cons_nil (fun w hw => ?_) _
    obtain ⟨j, i, rest, -, heq⟩ := exists_eq_of_mem_walksFromBranches hw
    exact ⟨.branch j i, rest, heq⟩

theorem inOrder_walksFrom {step : Nat → Path.Step}
    (hstep : ∀ i j, i < j → (step i).Before (step j)) (i : Nat) :
    (bs : List Block) → InOrder (walksFrom step i bs)
  | [] => .nil
  | b :: bs => by
    refine List.pairwise_append.mpr ⟨?_, inOrder_walksFrom hstep (i + 1) bs, ?_⟩
    · exact List.pairwise_map.mpr ((inOrder_walks b).imp fun h => .cons h)
    · intro v hv w hw
      obtain ⟨u, -, rfl⟩ := List.mem_map.mp hv
      obtain ⟨j, rest, hij, heq⟩ := exists_eq_of_mem_walksFrom hw
      rw [heq]
      exact .rel (hstep i j hij)

theorem inOrder_walksFromBranches (k : Nat) :
    (branches : List (List Block)) → InOrder (walksFromBranches k branches)
  | [] => .nil
  | branch :: branches => by
    have hstep (i j : Nat) (hij : i < j) : (Path.Step.branch k i).Before (.branch k j) :=
      .inr ⟨rfl, hij⟩
    refine List.pairwise_append.mpr
      ⟨inOrder_walksFrom hstep 0 branch, inOrder_walksFromBranches (k + 1) branches, ?_⟩
    intro v hv w hw
    obtain ⟨i, rest, -, hveq⟩ := exists_eq_of_mem_walksFrom hv
    obtain ⟨j, i', rest', hkj, hweq⟩ := exists_eq_of_mem_walksFromBranches hw
    rw [hveq, hweq]
    exact .rel (.inl hkj)

end

/-- The first block in document order that has a property, if any has it. -/
theorem exists_first {α : Type} {found : Block → Option α} {bs : List Block} {a : α}
    (h : (nodesOfAll bs).findSome? found = some a) :
    ∃ p b, get? bs p = some b ∧ found b = some a ∧
      ∀ q c, get? bs q = some c → (found c).isSome → q = p ∨ p.Before q := by
  rw [← map_snd_walksFrom .child 0 bs, List.findSome?_map, List.findSome?_eq_some_iff] at h
  obtain ⟨vs, ⟨steps, b⟩, ws, hwalks, hb, hnone⟩ := h
  have horder : InOrder (vs ++ (steps, b) :: ws) :=
    hwalks ▸ inOrder_walksFrom child_before 0 bs
  refine ⟨⟨steps⟩, b, mem_walksFrom_child.mp (by simp [hwalks]), hb, ?_⟩
  intro q c hq hc
  have hmem := mem_walksFrom_child.mpr hq
  rw [hwalks, List.mem_append, List.mem_cons] at hmem
  rcases hmem with hmem | heq | hmem
  · have hnot := hnone _ hmem
    rw [Function.comp_apply] at hnot
    simp [hnot] at hc
  · cases heq
    exact .inl rfl
  · obtain ⟨-, horder, -⟩ := List.pairwise_append.mp horder
    exact .inr ((List.pairwise_cons.mp horder).1 _ hmem)

end Block

end PatternBlocks
