import ClosureCodegen.Proofs.Coloring.Simplification
import ClosureCodegen.Proofs.Liveness.Exactness

/-!
# What colouring answers

Colouring has three answers, and each says something about the graph.  Registers are given to every
variable, one each, and interfering variables get different ones.  A variable that is to be spilled
may be spilled.  A failure names a barred variable: every other node was set aside with few enough
neighbours or as a candidate.  So colouring does not fail if nothing is barred.
-/

namespace ClosureCodegen
open List
namespace InterferenceGraph

variable {visit : UseVisit} {l : Liveness} {cls : RegClass} {order : List PhysReg}
  {barred : List String}

/-! ## Names and nodes -/

theorem exists_isNode_of_mem {g : InterferenceGraph} {x : String} (h : x ∈ g.names) :
    ∃ a, g.IsNode a x := mem_iff_getElem?.mp h

theorem interferes_iff {a b : Nat} {x y : String} (ha : (ofLiveness visit l cls).IsNode a x)
    (hb : (ofLiveness visit l cls).IsNode b y) :
    (ofLiveness visit l cls).interferes x y = true ↔ b ∈ (ofLiveness visit l cls).neighbours a := by
  have hx : (ofLiveness visit l cls).nodes.number? x = some a :=
    (Numbering.number?_eq_some_iff nodup_names_ofLiveness).mpr ha
  have hy : (ofLiveness visit l cls).nodes.number? y = some b :=
    (Numbering.number?_eq_some_iff nodup_names_ofLiveness).mpr hb
  simp only [interferes, hx, hy, contains_iff_mem]

/-! ## Registers for every variable -/

theorem map_fst_assigned_sublist (names : List String) (colors : List (Option PhysReg)) :
    (((names.zip colors).filterMap fun (x, r?) => r?.map fun r => (x, r)).map Prod.fst).Sublist
      names := by
  induction names generalizing colors with
  | nil => simp
  | cons x names ih =>
    cases colors with
    | nil => simp
    | cons c colors =>
      cases c with
      | none => exact (ih colors).trans (sublist_cons_self x names)
      | some r => exact (ih colors).cons_cons x

theorem map_fst_eq_names {registers : List (String × PhysReg)}
    (h : (ofLiveness visit l cls).color order barred = .ok (.assigned registers))
    (hall : ∀ x ∈ (ofLiveness visit l cls).names, ∃ p, (x, p) ∈ registers) :
    registers.map Prod.fst = (ofLiveness visit l cls).names := by
  have hsub : (registers.map Prod.fst).Sublist (ofLiveness visit l cls).names := by
    rcases color_inv h with ⟨colors, _, _, he⟩ | ⟨_, _, _, he⟩
    · cases he
      exact map_fst_assigned_sublist _ _
    · cases he
  have hsup : (ofLiveness visit l cls).names ⊆ registers.map Prod.fst := by
    intro x hx
    obtain ⟨p, hp⟩ := hall x hx
    exact mem_map_of_mem (f := Prod.fst) hp
  exact hsub.eq_of_length_le (subperm_of_subset nodup_names_ofLiveness hsup).length_le

theorem ne_of_interferes {registers : List (String × PhysReg)}
    (h : (ofLiveness visit l cls).color order barred = .ok (.assigned registers)) {x y : String}
    {p q : PhysReg} (hp : (x, p) ∈ registers) (hq : (y, q) ∈ registers)
    (hxy : (ofLiveness visit l cls).interferes x y = true) : p ≠ q := by
  rcases color_inv h with ⟨colors, hproper, _, he⟩ | ⟨_, _, _, he⟩
  · cases he
    obtain ⟨a, ha, hpa⟩ := mem_assigned.mp hp
    obtain ⟨b, hb, hqb⟩ := mem_assigned.mp hq
    exact hproper ((interferes_iff ha hb).mp hxy) hpa hqb
  · cases he

/-! ## The three answers -/

theorem color_of_barred (visit : UseVisit) (l : Liveness) (cls : RegClass) (hnodup : order.Nodup)
    (barred : List String) :
    (∃ c, (ofLiveness visit l cls).color order barred = .ok c ∧ ∀ registers,
      c = .assigned registers → ∀ x ∈ (ofLiveness visit l cls).names, ∃ p, (x, p) ∈ registers) ∨
    ∃ x ∈ (ofLiveness visit l cls).names, x ∈ barred ∧
      (ofLiveness visit l cls).color order barred = .error (.uncolorableNode x) := by
  refine (color_of_exempt hnodup (fun m => ∃ x, (ofLiveness visit l cls).IsNode m x ∧ x ∈ barred)
    fun {s c} hs _ hchoose hc => .inl ?_).imp_right ?_
  · obtain ⟨hlt, hmem, _⟩ := Simplifier.degreeOf_le_of_choose? hs.consistent
      (fun m hm => (mem_spillable.mp hm).1) hchoose hc
    obtain ⟨x, hx⟩ := exists_isNode hlt
    rw [mem_spillable, not_and, not_not, nameOf_eq hx] at hmem
    exact ⟨x, hx, hmem hlt⟩
  · rintro ⟨m, ⟨x, hx, hbarred⟩, herror⟩
    rw [nameOf_eq hx] at herror
    exact ⟨x, mem_of_getElem? hx, hbarred, herror⟩

/-- A colouring gives every node a register of the order and interfering nodes different ones, what
it gives up for spilling is a node that is not barred, and it fails only at a barred node: never, if
nothing is barred. -/
theorem color_attribution (visit : UseVisit) (l : Liveness) (cls : RegClass) {order : List PhysReg}
    (hnodup : order.Nodup) (barred : List String) :
    (∀ registers, (ofLiveness visit l cls).color order barred = .ok (.assigned registers) →
      registers.map Prod.fst = (ofLiveness visit l cls).names ∧
      (∀ x p, (x, p) ∈ registers → p ∈ order) ∧
      ∀ x y p q, (x, p) ∈ registers → (y, q) ∈ registers →
        (ofLiveness visit l cls).interferes x y = true → p ≠ q) ∧
    (∀ x, (ofLiveness visit l cls).color order barred = .ok (.spill x) →
      x ∈ (ofLiveness visit l cls).names ∧ x ∉ barred) ∧
    (∀ e, (ofLiveness visit l cls).color order barred = .error e →
      ∃ x ∈ (ofLiveness visit l cls).names, x ∈ barred ∧ e = .uncolorableNode x) ∧
    ∃ c, (ofLiveness visit l cls).color order [] = .ok c := by
  refine ⟨fun registers h => ⟨?_, fun x p hp => mem_order_of_color h hp,
    fun x y p q hp hq hxy => ne_of_interferes h hp hq hxy⟩, fun x h => color_spill h,
    fun e h => ?_, ?_⟩
  · rcases color_of_barred visit l cls hnodup barred with ⟨c, hc, hall⟩ | ⟨_, _, _, herror⟩
    · exact map_fst_eq_names h (hall registers (Except.ok.inj (hc.symm.trans h)))
    · cases herror.symm.trans h
  · rcases color_of_barred visit l cls hnodup barred with ⟨c, hc, _⟩ | ⟨x, hx, hbarred, herror⟩
    · cases hc.symm.trans h
    · exact ⟨x, hx, hbarred, Except.error.inj (h.symm.trans herror)⟩
  · rcases color_of_barred visit l cls hnodup [] with ⟨c, hc, _⟩ | ⟨_, _, hbarred, _⟩
    · exact ⟨c, hc⟩
    · cases hbarred

/-- The two counters need a register each: with two registers they get them, and with one the second
to be coloured is left without if neither may be spilled. -/
theorem color_countDown : ∃ l, Liveness.ofCode countDown = .ok l ∧
    (ofLiveness .byName l .int).color [⟨.int, 10⟩, ⟨.int, 11⟩] [] =
      .ok (.assigned [("n", ⟨.int, 11⟩), ("d", ⟨.int, 10⟩)]) ∧
    ((ofLiveness .byName l .int).color [⟨.int, 10⟩] ["n", "d"]).toOption = none := by
  have h : ((Liveness.ofCode countDown).toOption.any fun l =>
      ((ofLiveness .byName l .int).color [⟨.int, 10⟩, ⟨.int, 11⟩] []).toOption ==
        some (.assigned [("n", ⟨.int, 11⟩), ("d", ⟨.int, 10⟩)]) &&
      ((ofLiveness .byName l .int).color [⟨.int, 10⟩] ["n", "d"]).toOption == none) = true := by
    simp only [ofLiveness_eq, color, Simplifier.run_eq_runWithin 10]
    decide +kernel
  obtain ⟨l, hl, hcolor⟩ := (Option.any_eq_true ..).mp h
  simp only [Bool.and_eq_true, beq_iff_eq] at hcolor
  exact ⟨l, Outcome.eq_ok_of_toOption hl, Outcome.eq_ok_of_toOption hcolor.1, hcolor.2⟩

theorem color_attribution_countDown : ∃ l, Liveness.ofCode countDown = .ok l ∧
    [(⟨.int, 10⟩ : PhysReg), ⟨.int, 11⟩].Nodup ∧ (ofLiveness .byName l .int).names = ["n", "d"] ∧
    ∃ x ∈ ["n", "d"], (ofLiveness .byName l .int).color [⟨.int, 10⟩] ["n", "d"] =
      .error (.uncolorableNode x) := by
  obtain ⟨l, hl, hcolored, hfailed⟩ := color_countDown
  have hnodup : [(⟨.int, 10⟩ : PhysReg), ⟨.int, 11⟩].Nodup := by decide
  obtain ⟨hnames, _, _⟩ := (color_attribution .byName l .int hnodup []).1 _ hcolored
  refine ⟨l, hl, hnodup, hnames.symm, ?_⟩
  cases hc : (ofLiveness .byName l .int).color [⟨.int, 10⟩] ["n", "d"] with
  | ok c =>
    rw [hc] at hfailed
    cases hfailed
  | error e =>
    obtain ⟨x, _, hx, rfl⟩ :=
      (color_attribution .byName l .int (nodup_singleton _) ["n", "d"]).2.2.1 e hc
    exact ⟨x, hx, rfl⟩

end InterferenceGraph
end ClosureCodegen
