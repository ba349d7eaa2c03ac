import ClosureCodegen.Proofs.Allocation.Progress
import ClosureCodegen.Proofs.Coloring.CoLiveness

/-!
# Allocation does not depend on the visiting order

The order in which uses are visited can only matter where a variable is first mentioned by being
used.  In a body whose variables are defined further up than they are read there is no such place, so
the nodes have the same numbers in every order.  Marking parameters and spilling keep this: a marker
stands behind its parameter, a store behind a definition, and a temporary behind its load.

* `ReadsDefined.ofLiveness_eq`: one round.
* `ReadsDefined.spillAll`: what the next round starts with.
* `allocateVisiting_eq`: all rounds.
-/

namespace ClosureCodegen
open List Instr Liveness InterferenceGraph ClosureCodegen.Numbering

variable {code part rest : Code} {known known' : List Reg} {visit visit' : UseVisit}

/-- Every variable that an instruction reads is among the known ones or defined by an instruction
in front of it. -/
def ReadsDefined : List Reg → Code → Prop
  | _, [] => True
  | known, i :: rest =>
    (∀ v ∈ i.trackedUses, v ∈ known) ∧ ReadsDefined (known ++ i.trackedDefs) rest

instance decidableReadsDefined (known : List Reg) (code : Code) :
    Decidable (ReadsDefined known code) :=
  match code with
  | [] => .isTrue trivial
  | i :: rest =>
    have := decidableReadsDefined (known ++ i.trackedDefs) rest
    inferInstanceAs (Decidable (_ ∧ _))

namespace ReadsDefined

theorem mono (h : ReadsDefined known code) (hk : known ⊆ known') : ReadsDefined known' code := by
  induction code generalizing known known' with
  | nil => exact trivial
  | cons i rest ih =>
    exact ⟨fun v hv => hk (h.1 v hv), ih h.2 (append_subset.mpr
      ⟨Subset.trans hk (subset_append_left _ _), subset_append_right _ _⟩)⟩

theorem append_iff : ReadsDefined known (part ++ rest) ↔
    ReadsDefined known part ∧ ReadsDefined (known ++ part.flatMap trackedDefs) rest := by
  induction part generalizing known with
  | nil => simp [ReadsDefined]
  | cons i part ih => rw [cons_append, ReadsDefined, ih, ReadsDefined, flatMap_cons, append_assoc,
      and_assoc]

theorem of_forall_mem (h : ∀ i ∈ code, ∀ v ∈ i.trackedUses, v ∈ known) :
    ReadsDefined known code := by
  induction code generalizing known with
  | nil => trivial
  | cons i code ih =>
    obtain ⟨hi, hcode⟩ := forall_mem_cons.mp h
    exact ⟨hi, ih fun k hk v hv => mem_append_left _ (hcode k hk v hv)⟩

theorem exists_def (h : ReadsDefined [] code) {p : Nat} {i : Instr} (hi : code[p]? = some i)
    {v : Reg} (hv : v ∈ i.trackedUses) : ∃ q < p, ∃ k, code[q]? = some k ∧ v ∈ k.trackedDefs := by
  have hsplit : code = code.take p ++ i :: code.drop (p + 1) := by
    obtain ⟨hp, rfl⟩ := List.getElem?_eq_some_iff.mp hi
    rw [getElem_cons_drop, take_append_drop]
  rw [hsplit, append_iff] at h
  obtain ⟨k, hk, hd⟩ := mem_flatMap.mp (h.2.1 v hv)
  obtain ⟨q, hq⟩ := mem_iff_getElem?.mp hk
  rw [getElem?_take] at hq
  split at hq
  · next hlt => exact ⟨q, hlt, k, hq, hd⟩
  · cases hq

/-! ## One round -/

end ReadsDefined

theorem Numbering.insertAll_of_subset {n : Numbering} {xs : List String} (h : xs ⊆ n.toList) :
    n.insertAll xs = n := by
  induction xs with
  | nil => rfl
  | cons x xs ih =>
    obtain ⟨hx, hxs⟩ := cons_subset.mp h
    have hfound : ¬n.index[x]? = none := by
      rw [n.index_eq x, idxOf?_eq_none_iff]
      exact not_not.mpr hx
    have hsame : n.insert x = n := dif_neg hfound
    rw [insertAll, foldl_cons, hsame]
    exact ih hxs

theorem Numbering.mem_foldl_insertAll {f : Nat → List String} {is : List Nat} {n : Numbering}
    {x : String} : x ∈ (is.foldl (fun n i => n.insertAll (f i)) n).toList ↔
      x ∈ n.toList ∨ ∃ i ∈ is, x ∈ f i := by
  induction is generalizing n with
  | nil => simp
  | cons i is ih =>
    rw [foldl_cons, ih, mem_insertAll, or_assoc]
    simp only [mem_cons, exists_eq_or_imp]

/-- If everything that is used is in a clique further up, the cliques alone number the nodes. -/
theorem Liveness.mentions_eq_cliques {l : Liveness} {cls : RegClass} (hvisit : visit.IsOrder)
    (h : ∀ p < l.size, ∀ x ∈ (l.uses p).namesOf cls, ∃ q < p, x ∈ l.clique cls q) :
    l.mentions visit cls =
      (List.range l.size).foldl (fun n i => n.insertAll (l.clique cls i)) empty := by
  have hfold : ∀ m ≤ l.size,
      (List.range m).foldl (fun n i => (n.insertAll (visit cls i ((l.uses i).namesOf cls))).insertAll
        (l.clique cls i)) empty =
      (List.range m).foldl (fun n i => n.insertAll (l.clique cls i)) empty := by
    intro m hm
    induction m with
    | zero => rfl
    | succ m ih =>
      rw [range_succ, foldl_append, foldl_append, ih (Nat.le_of_succ_le hm)]
      refine congrArg (insertAll · _) (insertAll_of_subset fun x hx => ?_)
      obtain ⟨q, hq, hclique⟩ := h m hm x ((hvisit _ _ _).mem_iff.mp hx)
      exact mem_foldl_insertAll.mpr (.inr ⟨q, mem_range.mpr hq, hclique⟩)
  exact hfold _ (Nat.le_refl _)

namespace ReadsDefined

variable {order : AllocationOrder} {s : SpillState}

theorem ofLiveness_eq (h : ReadsDefined [] code) {l : Liveness} (hl : ofCode code = .ok l)
    (hvisit : visit.IsOrder) (hvisit' : visit'.IsOrder) (cls : RegClass) :
    ofLiveness visit l cls = ofLiveness visit' l cls := by
  have hused : ∀ p < l.size, ∀ x ∈ (l.uses p).namesOf cls, ∃ q < p, x ∈ l.clique cls q := by
    intro p hp x hx
    rw [size_ofCode hl] at hp
    have hi := getElem?_eq_getElem hp
    rw [LiveSet.mem_namesOf, mem_uses hl hi] at hx
    obtain ⟨q, hq, k, hk, hd⟩ := h.exists_def hi hx
    exact ⟨q, hq, mem_clique.mpr (.inr ((mem_defs hl hk).mpr hd))⟩
  simp only [ofLiveness, mentions_eq_cliques hvisit hused,
    mentions_eq_cliques hvisit' hused]

/-! ## The next round -/

theorem storeBehind {var : Reg} {i : Instr} (hk : i.trackedDefs ⊆ known) :
    ReadsDefined known (storeBehind var i) := by
  unfold ClosureCodegen.storeBehind
  split
  · next hvar =>
    refine ⟨fun v hv => ?_, trivial⟩
    obtain rfl : v = var := mem_singleton.mp (mem_trackedUses.mp hv).1
    exact hk hvar
  · trivial

theorem spillInstr (var : Reg) (s : SpillState) {i : Instr} (h : ∀ v ∈ i.trackedUses, v ∈ known) :
    ReadsDefined known (spillInstr var s i).1 ∧
      i.trackedDefs ⊆ (ClosureCodegen.spillInstr var s i).1.flatMap trackedDefs := by
  by_cases hvar : var ∈ i.uses
  · have hdefs : ∀ f, (i.mapUses f).trackedDefs = i.trackedDefs := fun f => by
      rw [trackedDefs, defs_mapUses, trackedDefs]
    rw [spillInstr_of_mem_uses hvar]
    refine ⟨⟨forall_mem_nil _, fun v hv => ?_, .storeBehind ?_⟩, fun v hv => ?_⟩
    · -- the instruction reads the temporary or what it read before
      rw [mem_trackedUses, uses_mapUses, mem_map] at hv
      obtain ⟨⟨r, hr, rfl⟩, hres⟩ := hv
      by_cases hr' : r = var
      · rw [if_pos hr'] at hres ⊢
        exact mem_append_right _ (mem_trackedDefs.mpr ⟨mem_cons_self, hres⟩)
      · rw [if_neg hr'] at hres ⊢
        exact mem_append_left _ (h r (mem_trackedUses.mpr ⟨hr, hres⟩))
    · rw [hdefs]
      exact subset_append_right _ _
    · exact mem_flatMap.mpr ⟨_, mem_cons_of_mem _ mem_cons_self, by rwa [hdefs]⟩
  · rw [spillInstr_of_not_mem_uses hvar]
    exact ⟨⟨h, .storeBehind (subset_append_right _ _)⟩,
      fun v hv => mem_flatMap.mpr ⟨i, mem_cons_self, hv⟩⟩

theorem spillCode (var : Reg) (h : ReadsDefined known code) :
    ReadsDefined known (spillCode var s code).1 := by
  induction code generalizing known s with
  | nil => trivial
  | cons i code ih =>
    obtain ⟨hhead, hdefs⟩ := spillInstr var s h.1
    refine append_iff.mpr ⟨hhead, ih (h.2.mono ?_)⟩
    exact append_subset.mpr ⟨subset_append_left _ _, Subset.trans hdefs (subset_append_right _ _)⟩

theorem spillAll (h : ReadsDefined [] code) (vars : List Reg) :
    ReadsDefined [] (spillAll s code vars).1 := by
  induction vars generalizing s code with
  | nil => exact h
  | cons var vars ih => exact ih (h.spillCode var)

theorem markUnusedParams (h : ReadsDefined [] code) : ReadsDefined [] (markUnusedParams code) := by
  obtain ⟨front, params, rest, hcode, hparams, hmarked⟩ := markUnusedParams_eq code
  rw [hcode, append_iff, nil_append] at h
  rw [hmarked, append_iff, append_iff, nil_append, nil_append]
  refine ⟨⟨h.1, of_forall_mem fun k hk v hv => ?_⟩, h.2.mono fun v hv => ?_⟩
  swap
  · rw [flatMap_append] at hv ⊢
    exact mem_append_left _ (by rwa [flatMap_append])
  -- a marker reads what its parameter defines
  obtain ⟨⟨op, os⟩, hi, r, hr, -, rfl⟩ := mem_markers hk
  obtain ⟨hmem, hres⟩ := Instr.mem_trackedUses.mp hv
  obtain rfl : v = r := mem_singleton.mp hmem
  obtain rfl : op = .param := of_decide_eq_true (hparams _ hi)
  refine mem_flatMap.mpr ⟨_, mem_append_right _ hi, Instr.mem_trackedDefs.mpr ⟨?_, hres⟩⟩
  obtain ⟨o, ho, hreg⟩ := Option.bind_eq_some_iff.mp hr
  cases os with
  | nil => cases ho
  | cons o' os =>
    cases ho
    rw [Instr.defs, Instr.regs, filterMap_cons_some hreg]
    exact mem_cons_self

end ReadsDefined

variable {visit visit' : Nat → UseVisit} {order : AllocationOrder}

theorem allocateRounds_eq (hvisit : ∀ n, (visit n).IsOrder) (hvisit' : ∀ n, (visit' n).IsOrder)
    {fuel round : Nat} {s : SpillState} {spilled : List Reg} (h : ReadsDefined [] code) :
    allocateRounds visit order fuel round s spilled code =
      allocateRounds visit' order fuel round s spilled code := by
  induction fuel generalizing round s spilled code with
  | zero => rfl
  | succ fuel ih =>
    unfold allocateRounds colorRound colorClass
    cases hl : ofCode code with
    | error e => rfl
    | ok l =>
    simp only [Outcome.ok_bind, h.ofLiveness_eq hl (hvisit round) (hvisit' round)]
    refine bind_congr fun result => ?_
    split
    · rfl
    · split
      · rfl
      · exact ih (h.spillAll _)

/-- Allocation gives the same result in every visiting order. -/
theorem allocateVisiting_eq (hvisit : ∀ n, (visit n).IsOrder) (hvisit' : ∀ n, (visit' n).IsOrder)
    (order : AllocationOrder) (h : ReadsDefined [] code) :
    allocateVisiting visit order code = allocateVisiting visit' order code :=
  allocateRounds_eq hvisit hvisit' h.markUnusedParams

theorem allocateVisiting_eq_firstOfTwo :
    UseVisit.backwards.IsOrder ∧ ReadsDefined [] firstOfTwo ∧
      allocateVisiting (fun _ => .backwards) singleRegister firstOfTwo = .ok firstOfTwoSpilled := by
  have hreads : ReadsDefined [] firstOfTwo := by decide
  refine ⟨UseVisit.isOrder_backwards, hreads, ?_⟩
  rw [allocateVisiting_eq (fun _ => UseVisit.isOrder_backwards) (fun _ => UseVisit.isOrder_byName)
    singleRegister hreads]
  exact allocate_firstOfTwo

end ClosureCodegen
