import ClosureCodegen.Coloring.Assignment
import ClosureCodegen.Proofs.Coloring.Graph

/-!
# Colourings are proper

Whatever the order in which nodes are coloured, a node never takes the register of a coloured
neighbour.  So two variables that some instruction needs at once get different registers.  A
variable that is given up for spilling is one that may be spilled.
-/

namespace ClosureCodegen
open List

variable {id : Nat} {p r : PhysReg} {x : String} {c : Coloring} {s : Simplifier}
  {registers : List (String × PhysReg)}
namespace InterferenceGraph

/-! ## Colours -/

/-- No two coloured neighbours share a register. -/
def ProperColors (g : InterferenceGraph) (colors : Array (Option PhysReg)) : Prop :=
  ∀ {a b p q}, b ∈ g.neighbours a → colors.getD a none = some p → colors.getD b none = some q →
    p ≠ q

variable {g : InterferenceGraph} {order : List PhysReg} {colors : Array (Option PhysReg)}

theorem mem_taken : p ∈ g.taken colors id ↔ ∃ m ∈ g.neighbours id, colors.getD m none = some p := by
  rw [taken, mem_filterMap]

theorem getD_setIfInBounds {k : Nat} (h : (colors.setIfInBounds id (some r)).getD k none = some p) :
    (k = id ∧ p = r) ∨ (k ≠ id ∧ colors.getD k none = some p) := by
  rw [Array.getD_eq_getD_getElem?, Array.getElem?_setIfInBounds] at h
  by_cases hk : id = k
  · subst hk
    by_cases hlt : id < colors.size
    · rw [if_pos rfl, if_pos hlt] at h
      cases h
      exact .inl ⟨rfl, rfl⟩
    · rw [if_pos rfl, if_neg hlt] at h
      cases h
  · rw [if_neg hk, ← Array.getD_eq_getD_getElem?] at h
    exact .inr ⟨Ne.symm hk, h⟩

theorem getD_replicate_none (n a : Nat) :
    (Array.replicate n (none : Option PhysReg)).getD a none = none := by
  rw [Array.getD_eq_getD_getElem?, Array.getElem?_replicate]
  split <;> rfl

theorem ProperColors.set (hsymm : ∀ {a b}, b ∈ g.neighbours a → a ∈ g.neighbours b)
    (hirr : ∀ a, a ∉ g.neighbours a) (h : g.ProperColors colors) (hr : r ∉ g.taken colors id) :
    g.ProperColors (colors.setIfInBounds id (some r)) := by
  intro a b p q hab ha hb hpq
  subst hpq
  rcases getD_setIfInBounds ha with ⟨hid, hp⟩ | ⟨_, ha'⟩
  · subst hid hp
    rcases getD_setIfInBounds hb with ⟨rfl, _⟩ | ⟨_, hb'⟩
    · exact hirr _ hab
    · exact hr (mem_taken.mpr ⟨b, hab, hb'⟩)
  · rcases getD_setIfInBounds hb with ⟨hid, hp⟩ | ⟨_, hb'⟩
    · subst hid hp
      exact hr (mem_taken.mpr ⟨a, hsymm hab, ha'⟩)
    · exact h hab ha' hb' rfl

theorem mem_assigned :
    (x, p) ∈ (g.names.zip colors.toList).filterMap (fun (x, r?) => r?.map fun r => (x, r)) ↔
      ∃ a, g.IsNode a x ∧ colors.getD a none = some p := by
  rw [mem_filterMap]
  constructor
  · rintro ⟨⟨y, r?⟩, hmem, he⟩
    obtain ⟨r, hr, he⟩ := Option.map_eq_some_iff.mp he
    cases he
    subst hr
    obtain ⟨a, ha⟩ := mem_iff_getElem?.mp hmem
    obtain ⟨hx, hp⟩ := getElem?_zip_eq_some.mp ha
    refine ⟨a, hx, ?_⟩
    rw [Array.getD_eq_getD_getElem?, ← Array.getElem?_toList, hp]
    rfl
  · rintro ⟨a, hx, hp⟩
    rw [Array.getD_eq_getD_getElem?, ← Array.getElem?_toList] at hp
    refine ⟨(x, some p), mem_iff_getElem?.mpr ⟨a, ?_⟩, rfl⟩
    refine getElem?_zip_eq_some.mpr ⟨hx, ?_⟩
    cases hc : colors.toList[a]? with
    | none =>
      rw [hc] at hp
      cases hp
    | some c =>
      rw [hc] at hp
      exact congrArg some hp

/-! ## Selection -/

/-- The registers of a proper colouring with registers of the order. -/
def Assigns (g : InterferenceGraph) (order : List PhysReg) (c : Coloring) : Prop :=
  ∃ colors, g.ProperColors colors ∧ (∀ a p, colors.getD a none = some p → p ∈ order) ∧
    c = .assigned ((g.names.zip colors.toList).filterMap fun (x, r?) => r?.map fun r => (x, r))

/-- What selection ends with: a proper colouring, or a candidate. -/
theorem select_inv (hsymm : ∀ {a b}, b ∈ g.neighbours a → a ∈ g.neighbours b)
    (hirr : ∀ a, a ∉ g.neighbours a) {stack : List SetAside} (h : g.ProperColors colors)
    (hord : ∀ a p, colors.getD a none = some p → p ∈ order)
    (hsel : g.select order stack colors = .ok c) :
    g.Assigns order c ∨ ∃ s ∈ stack, s.candidate = true ∧ c = .spill (g.nameOf s.node) := by
  induction stack generalizing colors with
  | nil =>
    cases hsel
    exact .inl ⟨colors, h, hord, rfl⟩
  | cons s stack ih =>
    obtain ⟨id, candidate⟩ := s
    simp only [select] at hsel
    split at hsel
    · next r hr =>
      have hnot : r ∉ g.taken colors id := by simpa using find?_some hr
      have hord' : ∀ a p, (colors.setIfInBounds id (some r)).getD a none = some p → p ∈ order := by
        intro a p hp
        rcases getD_setIfInBounds hp with ⟨_, rfl⟩ | ⟨_, hp⟩
        · exact mem_of_find?_eq_some hr
        · exact hord a p hp
      rcases ih (h.set hsymm hirr hnot) hord' hsel with hdone | ⟨s, hs, hc, he⟩
      · exact .inl hdone
      · exact .inr ⟨s, mem_cons_of_mem _ hs, hc, he⟩
    · split at hsel
      · next hc =>
        cases hsel
        exact .inr ⟨_, mem_cons_self, hc, rfl⟩
      · cases hsel

end InterferenceGraph

/-! ## Candidates -/

namespace Simplifier

variable {g : InterferenceGraph} {k : Nat} {spillable : List Nat}

/-- A search that moves on to the next node or keeps the one it has ends with one of the nodes. -/
theorem foldl_pick {pick : Option Nat → Nat → Option Nat}
    (h : ∀ best id, pick best id = some id ∨ best.isSome = true ∧ pick best id = best)
    (ids : List Nat) (best : Option Nat) :
    ids.foldl pick best = best ∧ (ids = [] ∨ best.isSome = true) ∨
      ∃ id ∈ ids, ids.foldl pick best = some id := by
  induction ids generalizing best with
  | nil => exact .inl ⟨rfl, .inl rfl⟩
  | cons i ids ih =>
    rw [foldl_cons]
    rcases ih (pick best i) with ⟨hkept, -⟩ | ⟨id, hid, hlast⟩
    · rw [hkept]
      rcases h best i with hnext | ⟨hsome, hsame⟩
      · exact .inr ⟨i, mem_cons_self, hnext⟩
      · exact .inl ⟨hsame, .inr hsome⟩
    · exact .inr ⟨id, mem_cons_of_mem i hid, hlast⟩

theorem highest?_cases (s : Simplifier) (ids : List Nat) :
    s.highest? ids = none ∧ ids = [] ∨ ∃ id ∈ ids, s.highest? ids = some id := by
  unfold highest?
  refine (foldl_pick (fun best id => ?_) ids none).imp_left fun h =>
    ⟨h.1, h.2.resolve_right Bool.false_ne_true⟩
  cases best with
  | none => exact .inl rfl
  | some b =>
    dsimp only
    split
    · exact .inl rfl
    · exact .inr ⟨rfl, rfl⟩

theorem highest?_mem {ids : List Nat} (h : s.highest? ids = some id) : id ∈ ids := by
  rcases s.highest?_cases ids with ⟨hnone, -⟩ | ⟨i, hi, hsome⟩
  · cases hnone.symm.trans h
  · cases hsome.symm.trans h
    exact hi

theorem choose?_candidate {c : SetAside} (h : s.choose? g spillable = some c)
    (hc : c.candidate = true) : c.node ∈ spillable := by
  unfold choose? at h
  split at h
  · next id hid =>
    cases h
    exact (mem_filter.mp (highest?_mem hid)).1
  · obtain ⟨id, _, rfl⟩ := Option.map_eq_some_iff.mp h
    cases hc

/-- One step of simplification: a node of the worklist is passed over because it was set aside
before, or it is set aside, or the worklist is empty and a node is chosen. -/
inductive Step (g : InterferenceGraph) (k : Nat) (spillable : List Nat) :
    Simplifier → Simplifier → Prop where
  | skip {s : Simplifier} {id : Nat} {rest : List Nat} : s.remaining ≠ 0 →
      s.worklist = id :: rest → s.isRemoved id = true → Step g k spillable s { s with worklist := rest }
  | low {s : Simplifier} {id : Nat} {rest : List Nat} : s.remaining ≠ 0 →
      s.worklist = id :: rest → s.isRemoved id = false →
      Step g k spillable s ({ s with worklist := rest }.remove g k id false)
  | chosen {s : Simplifier} {c : SetAside} : s.remaining ≠ 0 → s.worklist = [] →
      s.choose? g spillable = some c → Step g k spillable s (s.remove g k c.node c.candidate)

theorem exists_run_eq {P : Simplifier → Prop}
    (hstep : ∀ {s s'}, Step g k spillable s s' → P s → P s') (h : P s) :
    ∃ s', P s' ∧ s.run g k spillable = s'.stack ∧
      (s'.remaining = 0 ∨ s'.choose? g spillable = none) := by
  fun_induction run g k spillable s with
  | case1 s hzero => exact ⟨s, h, rfl, .inl hzero⟩
  | case2 s hzero id rest hw hremoved ih => exact ih (hstep (.skip hzero hw hremoved) h)
  | case3 s hzero id rest hw hremoved ih =>
    exact ih (hstep (.low hzero hw (Bool.eq_false_iff.mpr hremoved)) h)
  | case4 s hzero hw c hchoose ih => exact ih (hstep (.chosen hzero hw hchoose) h)
  | case5 s _ _ hchoose => exact ⟨s, h, rfl, .inr hchoose⟩

/-- Every candidate on the stack may be spilled. -/
def CandidatesIn (spillable : List Nat) (s : Simplifier) : Prop :=
  ∀ c ∈ s.stack, c.candidate = true → c.node ∈ spillable

theorem CandidatesIn.step {s s' : Simplifier} (hstep : Step g k spillable s s')
    (h : s.CandidatesIn spillable) : s'.CandidatesIn spillable := by
  cases hstep with
  | skip => exact h
  | low => exact forall_mem_cons.mpr ⟨nofun, h⟩
  | chosen _ _ hchoose => exact forall_mem_cons.mpr ⟨choose?_candidate hchoose, h⟩

/-- Simplification with its first `n` steps as a recursion on their number. -/
def runWithin (g : InterferenceGraph) (k : Nat) (spillable : List Nat) :
    Nat → Simplifier → List SetAside
  | 0, s => run g k spillable s
  | n + 1, s =>
    if s.remaining = 0 then s.stack
    else
      match s.worklist with
      | id :: rest =>
        if s.isRemoved id then runWithin g k spillable n { s with worklist := rest }
        else runWithin g k spillable n ({ s with worklist := rest }.remove g k id false)
      | [] =>
        match s.choose? g spillable with
        | some c => runWithin g k spillable n (s.remove g k c.node c.candidate)
        | none => s.stack

theorem run_eq_runWithin (n : Nat) (g : InterferenceGraph) (k : Nat) (spillable : List Nat)
    (s : Simplifier) : run g k spillable s = runWithin g k spillable n s := by
  induction n generalizing s with
  | zero => rfl
  | succ n ih =>
    rw [run, runWithin]
    split
    · rfl
    · split
      · next id rest hw => simp only [hw, ih]
      · next hw =>
        cases s.choose? g spillable with
        | none => simp only [hw]
        | some c => simp only [hw, ih]

end Simplifier

/-! ## The colouring of a class -/

namespace InterferenceGraph

variable {visit : UseVisit} {l : Liveness} {cls : RegClass} {order : List PhysReg}
  {barred : List String}

theorem color_cases (h : (ofLiveness visit l cls).color order barred = .ok c) :
    (ofLiveness visit l cls).Assigns order c ∨
    ∃ s ∈ (Simplifier.start (ofLiveness visit l cls) order.length).run (ofLiveness visit l cls)
      order.length ((ofLiveness visit l cls).spillable barred),
      s.candidate = true ∧ c = .spill ((ofLiveness visit l cls).nameOf s.node) := by
  have hirr : ∀ a, a ∉ (ofLiveness visit l cls).neighbours a := by
    intro a ha
    obtain ⟨x, hx⟩ := exists_isNode (lt_size_of_mem_neighbours ha).1
    exact ((mem_neighbours_ofLiveness hx hx).mp ha).1 rfl
  exact select_inv mem_neighbours_symm hirr
    (fun {a b p q} _ ha => by rw [getD_replicate_none] at ha; cases ha)
    (fun a p ha => by rw [getD_replicate_none] at ha; cases ha) h

theorem color_inv (h : (ofLiveness visit l cls).color order barred = .ok c) :
    (ofLiveness visit l cls).Assigns order c ∨
    ∃ x ∈ (ofLiveness visit l cls).names, x ∉ barred ∧ c = .spill x := by
  refine (color_cases h).imp_right ?_
  rintro ⟨s, hs, hc, rfl⟩
  obtain ⟨_, hin, hrun, -⟩ := Simplifier.exists_run_eq Simplifier.CandidatesIn.step
    (s := .start (ofLiveness visit l cls) _) (forall_mem_nil _)
  have hmem := hin s (hrun ▸ hs) hc
  rw [spillable, mem_filter, mem_range] at hmem
  obtain ⟨x, hx⟩ := exists_isNode hmem.1
  have hname : (ofLiveness visit l cls).nameOf s.node = x := nameOf_eq hx
  refine ⟨x, mem_of_getElem? hx, ?_, by rw [hname]⟩
  rw [hname] at hmem
  exact of_decide_eq_true hmem.2

theorem color_proper (h : (ofLiveness visit l cls).color order barred = .ok (.assigned registers))
    {i : Nat} (hi : i < l.size) {y : String} {q : PhysReg} (hx : x ∈ l.clique cls i)
    (hy : y ∈ l.clique cls i) (hne : x ≠ y) (hp : (x, p) ∈ registers) (hq : (y, q) ∈ registers) :
    p ≠ q := by
  rcases color_inv h with ⟨colors, hproper, _, he⟩ | ⟨_, _, _, he⟩
  · cases he
    obtain ⟨a, ha, hpa⟩ := mem_assigned.mp hp
    obtain ⟨b, hb, hqb⟩ := mem_assigned.mp hq
    have hab : a ≠ b := by
      rintro rfl
      exact hne (Option.some.inj (ha.symm.trans hb))
    exact hproper ((mem_neighbours_ofLiveness ha hb).mpr ⟨hab, i, hi, hx, hy⟩) hpa hqb
  · cases he

theorem mem_order_of_color
    (h : (ofLiveness visit l cls).color order barred = .ok (.assigned registers))
    (hp : (x, p) ∈ registers) : p ∈ order := by
  rcases color_inv h with ⟨colors, _, hord, he⟩ | ⟨_, _, _, he⟩
  · cases he
    obtain ⟨a, _, hpa⟩ := mem_assigned.mp hp
    exact hord a p hpa
  · cases he

theorem color_spill (h : (ofLiveness visit l cls).color order barred = .ok (.spill x)) :
    x ∈ (l.mentions visit cls).toList ∧ x ∉ barred := by
  rcases color_inv h with ⟨_, _, _, he⟩ | ⟨y, hy, hb, he⟩
  · cases he
  · cases he
    exact ⟨hy, hb⟩

end InterferenceGraph
end ClosureCodegen
