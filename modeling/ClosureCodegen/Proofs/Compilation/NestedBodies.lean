import ClosureCodegen.Proofs.Code.Marks

/-!
# Nested control flow, from lowering to expansion

Lowering writes each conditional around the code of its two arms and numbers its labels from one
counter.  So the bodies of a program share no label, their conditionals are properly nested, and the
only jumps are those over the arms that are branched to.

* `Structured.isLaidOut`: the shape of lowered code says where branches and labels stand.
* `BodyPass.marksOf_eq`: no pass on bodies adds, drops or moves a branch or a label.
* `Program.lowerBodies_properlyNested`: the bodies of a program, and what passes make of them.
-/

namespace ClosureCodegen
open List Instr

variable {code out part : Code} {i k : Instr} {lo hi n : Nat} {f : String}

/-! ## Jumps over arms -/

/-- Jumps lead to the end of a conditional from in front of the arm that is branched to, and a jump
stands in front of every such arm. -/
structure JumpsOverArms (code : Code) : Prop where
  jump : ∀ a i, code[a]? = some i → i.op = .j →
    ∃ n, i = .jump (endifLabel n) ∧ code[a + 1]? = some (.labelled (thenLabel n))
  label : ∀ a i n, code[a]? = some i → i.isLabel = true → i.label? = some (thenLabel n) →
    ∃ b, a = b + 1 ∧ code[b]? = some (.jump (endifLabel n))

namespace JumpsOverArms

theorem append {code' : Code} (h : JumpsOverArms code) (h' : JumpsOverArms code') :
    JumpsOverArms (code ++ code') where
  jump a i hi hop := by
    by_cases ha : a < code.length
    · rw [getElem?_append_left ha] at hi
      obtain ⟨n, hn, hnext⟩ := h.jump a i hi hop
      exact ⟨n, hn, by rwa [getElem?_append_left (List.getElem?_eq_some_iff.mp hnext).1]⟩
    · have hle := Nat.le_of_not_lt ha
      rw [getElem?_append_right hle] at hi
      obtain ⟨n, hn, hnext⟩ := h'.jump _ i hi hop
      refine ⟨n, hn, ?_⟩
      rwa [getElem?_append_right (by omega), Nat.sub_add_comm hle]
  label a i n hi hlabel hn := by
    by_cases ha : a < code.length
    · rw [getElem?_append_left ha] at hi
      obtain ⟨b, rfl, hb⟩ := h.label a i n hi hlabel hn
      exact ⟨b, rfl, by rwa [getElem?_append_left (by omega)]⟩
    · have hle := Nat.le_of_not_lt ha
      rw [getElem?_append_right hle] at hi
      obtain ⟨b, hab, hb⟩ := h'.label _ i n hi hlabel hn
      refine ⟨code.length + b, by omega, ?_⟩
      rwa [getElem?_append_right (Nat.le_add_right _ _), Nat.add_sub_cancel_left]

theorem single (hop : i.op ≠ .j) (hl : i.isLabel = true → ∀ n, i.label? ≠ some (thenLabel n)) :
    JumpsOverArms [i] where
  jump _ _ hk hj := absurd (mem_singleton.mp (mem_of_getElem? hk) ▸ hj) hop
  label _ k n hk hlabel hn := by
    obtain rfl := mem_singleton.mp (mem_of_getElem? hk)
    exact absurd hn (hl hlabel n)

theorem pair (n : Nat) : JumpsOverArms [.jump (endifLabel n), .labelled (thenLabel n)] where
  jump a i hi hop := by
    match a with
    | 0 =>
      cases hi
      exact ⟨n, rfl, rfl⟩
    | 1 =>
      cases hi
      cases hop
  label a i m hi hlabel hm := by
    match a with
    | 0 =>
      cases hi
      cases hlabel
    | 1 =>
      cases hi
      obtain rfl := thenLabel_injective (Option.some.inj hm)
      exact ⟨0, rfl, rfl⟩

end JumpsOverArms

/-! ## The shape of lowered code -/

namespace Structured

variable (h : Structured lo hi code)
include h

theorem jumpsOverArms : JumpsOverArms code := by
  induction h with
  | nil => exact ⟨nofun, nofun⟩
  | @plain lo hi i code hp _ ih =>
    simp only [isPlain, Bool.and_eq_true, Bool.not_eq_true', decide_eq_true_eq] at hp
    refine (JumpsOverArms.single hp.2 fun hl => ?_).append ih
    rw [hp.1.1] at hl
    cases hl
  | @cond lo n mid hi hi' branch fall taken rest _ hb _ _ _ _ ih₁ ih₂ ih₃ =>
    have hbranch : JumpsOverArms [branch] := by
      refine .single (fun hop => ?_) fun hl => ?_
      · rw [hop] at hb
        cases hb
      · rw [isLabel_of_isBranch hb] at hl
        cases hl
    have hend : JumpsOverArms [.labelled (endifLabel n)] :=
      .single (fun hop => by cases hop) fun _ m hm => thenLabel_ne_endifLabel m n (Option.some.inj hm).symm
    have happ := hbranch.append (ih₁.append ((JumpsOverArms.pair n).append
      (ih₂.append (hend.append ih₃))))
    simpa [conditional] using happ

theorem laidOut : LaidOut (marksOf code) := by
  induction h with
  | nil => exact .nil
  | @plain lo hi i code hp _ ih =>
    simp only [isPlain, Bool.and_eq_true, Bool.not_eq_true', isLabel,
      decide_eq_false_iff_not] at hp
    rw [marksOf_cons_of_none (mark?_eq_none hp.1.1 hp.1.2)]
    exact ih
  | @cond lo n mid hi hi' branch fall taken rest _ hb hl _ _ _ ih₁ ih₂ ih₃ =>
    have hmarks : marksOf (conditional branch n fall taken ++ rest) =
        .branch (some (thenLabel n)) :: (marksOf fall ++ .label (some (thenLabel n)) ::
          (marksOf taken ++ .label (some (endifLabel n)) :: marksOf rest)) := by
      have hlabelled : ∀ l, (labelled l).mark? = some (.label (some l)) := fun _ => rfl
      have hjump : ∀ l, (jump l).mark? = none := fun _ => rfl
      simp [conditional, marksOf_cons, mark?_of_isBranch hb, hl, hlabelled, hjump]
    rw [hmarks]
    exact .cond n ih₁ ih₂ ih₃

theorem isLaidOut (hf : ¬NumberedLabel lo hi f) : IsLaidOut (.labelled f :: code) := by
  refine ⟨?_, f, marksOf code, rfl, h.laidOut⟩
  rw [labelNames_labelled, nodup_cons]
  exact ⟨fun hmem => hf (h.numbered f hmem), h.nodup_labelNames⟩

end Structured

/-! ## The bodies of a program -/

/-- Lowers all bodies of a program, one after the other, the top-level expression last. -/
def Program.lowerBodies (p : Program) : Lower (List Code) := do
  let bodies ← p.definitions.mapM Definition.lower
  return bodies ++ [← lowerTopLevel p.body p.heapOffset]

/-- Bodies with their entry labels, numbered one behind the other. -/
inductive NumberedBodies : Nat → Nat → List String → List Code → Prop where
  | nil {lo : Nat} : NumberedBodies lo lo [] []
  | cons {lo mid hi : Nat} {f : String} {code : Code} {fs : List String} {bodies : List Code} :
      Structured lo mid code → NumberedBodies mid hi fs bodies →
      NumberedBodies lo hi (f :: fs) ((.labelled f :: code) :: bodies)

namespace NumberedBodies

variable {fs : List String} {bodies : List Code} {mid : Nat}

theorem le (h : NumberedBodies lo hi fs bodies) : lo ≤ hi := by
  induction h with
  | nil => exact Nat.le_refl _
  | cons hs _ ih => exact Nat.le_trans hs.le ih

theorem concat (h : NumberedBodies lo mid fs bodies) (hs : Structured mid hi code) :
    NumberedBodies lo hi (fs ++ [f]) (bodies ++ [.labelled f :: code]) := by
  induction h with
  | nil => exact .cons hs .nil
  | cons hs' _ ih => exact .cons hs' (ih hs)

variable (h : NumberedBodies lo hi fs bodies)
include h

theorem exists_structured (hc : code ∈ bodies) :
    ∃ f ∈ fs, ∃ lo hi rest, code = .labelled f :: rest ∧ Structured lo hi rest := by
  induction h with
  | nil => cases hc
  | @cons lo mid hi f rest fs bodies hs _ ih =>
    rcases mem_cons.mp hc with rfl | hc
    · exact ⟨f, mem_cons_self, lo, mid, rest, rfl, hs⟩
    · obtain ⟨g, hg, hrest⟩ := ih hc
      exact ⟨g, mem_cons_of_mem f hg, hrest⟩

theorem mem_labelNames {l : String} (hl : l ∈ bodies.flatMap labelNames) :
    l ∈ fs ∨ NumberedLabel lo hi l := by
  induction h with
  | nil => cases hl
  | @cons lo mid hi f rest fs bodies hs hb ih =>
    rw [flatMap_cons, labelNames_labelled, mem_append, mem_cons] at hl
    rcases hl with (rfl | hl) | hl
    · exact .inl mem_cons_self
    · exact .inr ((hs.numbered l hl).mono (Nat.le_refl lo) hb.le)
    · exact (ih hl).imp (mem_cons_of_mem f) fun hn => hn.mono hs.le (Nat.le_refl hi)

theorem nodup (hfs : fs.Nodup) (hnum : ∀ f ∈ fs, ∀ lo hi, ¬NumberedLabel lo hi f) :
    (bodies.flatMap labelNames).Nodup := by
  induction h with
  | nil => exact nodup_nil
  | @cons lo mid hi f rest fs bodies hs hb ih =>
    rw [nodup_cons] at hfs
    rw [forall_mem_cons] at hnum
    rw [flatMap_cons, labelNames_labelled, nodup_append, nodup_cons]
    refine ⟨⟨fun hmem => hnum.1 _ _ (hs.numbered f hmem), hs.nodup_labelNames⟩, ih hfs.2 hnum.2, ?_⟩
    rintro l hl m hm rfl
    rcases mem_cons.mp hl with rfl | hl <;> rcases hb.mem_labelNames hm with hm | hm
    · exact hfs.1 hm
    · exact hnum.1 _ _ hm
    · exact hnum.2 l hm _ _ (hs.numbered l hl)
    · exact (hs.numbered l hl).disjoint hm (Nat.le_refl mid)

end NumberedBodies

variable {s s' : LowerState} {d : Definition} {bodies : List Code} {p : Program}

theorem Lowered.structured_between {e : Expr} {d? : Option Reg} {front back : Code}
    (h : Lowered s e d? code s') (hfront : ∀ i ∈ front, i.isPlain = true)
    (hback : ∀ i ∈ back, i.isPlain = true) :
    Structured s.counter s'.counter (front ++ (code ++ back)) :=
  (Structured.of_plain hfront (Nat.le_refl _)).append
    (h.structured.append (.of_plain hback (Nat.le_refl _)))

theorem Definition.exists_structured_of_lower (h : d.lower s = .ok code s') :
    ∃ rest, code = .labelled d.name :: rest ∧ Structured s.counter s'.counter rest := by
  obtain ⟨s₁, n, result?, body, hbody, hle, -, rfl⟩ := exists_lowered h
  refine ⟨_, rfl, (hbody.structured_between ?_ ?_).mono_left hle⟩
  · simp only [forall_mem_append, forall_mem_singleton]
    refine ⟨⟨fun i hi => ?_, fun i hi => ?_⟩, rfl⟩
    · obtain ⟨r, -, rfl⟩ := mem_map.mp hi
      rfl
    · obtain ⟨k, -, rfl⟩ := mem_mapIdx.mp hi
      rfl
  · cases result? <;> exact forall_mem_singleton.mpr rfl

theorem numberedBodies_of_mapM_lower {ds : List Definition}
    (h : ds.mapM Definition.lower s = .ok bodies s') :
    NumberedBodies s.counter s'.counter (ds.map Definition.name) bodies := by
  induction ds generalizing s bodies with
  | nil =>
    cases h
    exact .nil
  | cons d ds ih =>
    simp only [mapM_cons, Lower.bind_eq_ok, Lower.pure_eq_ok] at h
    obtain ⟨code, s₁, hd, rest, s₂, hds, rfl, rfl⟩ := h
    obtain ⟨code, rfl, hs⟩ := d.exists_structured_of_lower hd
    exact .cons hs (ih hds)

theorem Program.numberedBodies_of_lowerBodies (h : p.lowerBodies s = .ok bodies s') :
    NumberedBodies s.counter s'.counter (p.definitions.map Definition.name ++ [topLevelName])
      bodies := by
  simp only [lowerBodies, lowerTopLevel, Lower.bind_eq_ok, Lower.pure_eq_ok] at h
  obtain ⟨ds, s₁, hds, _, s₂, ⟨_, s₃, hs₃, body, s₄, hbody, rfl, rfl⟩, rfl, rfl⟩ := h
  cases hs₃
  have hs : Structured s₁.counter s₄.counter (startUp p.heapOffset ++ (body ++ [])) :=
    (Lowered.of_lower hbody).structured_between
      (fun i hi => (isFraming_of_mem_startUp p.heapOffset i hi).plain) (forall_mem_nil _)
  rw [append_nil] at hs
  exact (numberedBodies_of_mapM_lower hds).concat hs

/-! ## Passes -/

/-- A pass of the compiler on one body, up to the expansion to machine code. -/
inductive BodyPass : Code → Code → Prop where
  | foldAddresses (code : Code) : BodyPass code (foldAddresses code)
  | peephole (code : Code) : BodyPass code (deleteNops (peephole code))
  | allocate {code : Code} {visit : Nat → UseVisit} {order : AllocationOrder} {a : Allocation} :
      (∀ n, (visit n).IsOrder) → allocateVisiting visit order code = .ok a → BodyPass code a.code
  | assignParams {code out : Code} {f : String} : assignParams f code = .ok out → BodyPass code out
  | makeTailCalls {code out : Code} {count : Nat} :
      makeTailCalls code = .ok (out, count) → BodyPass code out
  | inlineIntrinsics (code : Code) : BodyPass code (inlineIntrinsics code).1
  | expand {code out : Code} {frame? : Option Frame} {clobbers : ClobberTable} {t t' : SlotState} :
      expand frame? clobbers t code = .ok (out, t') → BodyPass code out

theorem Expands.marksOf_eq {B : Instr → Code → Prop} (h : Expands B code out)
    (hB : ∀ {i block}, B i block → marksOf block = i.mark?.toList) : marksOf out = marksOf code := by
  induction h with
  | nil => rfl
  | cons hb _ ih => rw [marksOf_append, hB hb, ih, ← marksOf_cons]

theorem marksOf_map {g : Instr → Instr} (hg : ∀ i, (g i).op = i.op ∧ (g i).label? = i.label?)
    (code : Code) : marksOf (code.map g) = marksOf code := by
  rw [marksOf, marksOf, filterMap_map]
  exact filterMap_congr fun i _ => mark?_congr (hg i).1 (hg i).2

theorem marksOf_filter {keep : Instr → Bool} (hk : ∀ i, keep i = false → i.mark? = none) (code : Code) :
    marksOf (code.filter keep) = marksOf code := by
  rw [marksOf, filterMap_filter]
  refine filterMap_congr fun i _ => ?_
  split
  · rfl
  · next h => exact (hk i (Bool.eq_false_iff.mpr h)).symm

theorem marksOf_flatMap {g : Instr → Code} (hg : ∀ i, marksOf (g i) = i.mark?.toList) (code : Code) :
    marksOf (code.flatMap g) = marksOf code := by
  induction code with
  | nil => rfl
  | cons i code ih => rw [flatMap_cons, marksOf_append, hg, ih, ← marksOf_cons]

namespace Instr

end Instr

theorem ElementAccess.marksOf_fold? {a : ElementAccess} {known : KnownValues} {folded : Code}
    (h : a.fold? known = some folded) : marksOf folded = [] := by
  have hoffset : ∀ base w, (a.atOffset base w).mark? = none := by
    intro base w
    unfold atOffset
    split
    all_goals rcases a.value with ⟨x, _ | _⟩ <;> rfl
  unfold fold? at h
  split at h <;> cases h
  · refine marksOf_eq_nil.mpr (forall_mem_singleton.mpr ?_)
    unfold absoluteOp
    split <;> rfl
  all_goals rw [marksOf_cons_of_none rfl, marksOf_cons_of_none (hoffset _ _), marksOf_nil]

theorem marksOf_foldFrom (known : KnownValues) (rest : Code) :
    marksOf (foldFrom code known rest) = marksOf rest := by
  fun_induction foldFrom code known rest with
  | case1 known i j k rest folded h ih =>
    obtain ⟨a, ha, hf⟩ := Option.bind_eq_some_iff.mp h
    obtain ⟨hi, hj, hk⟩ := (ElementAccess.madeOf_of? ha).isInner
    rw [marksOf_append, ElementAccess.marksOf_fold? hf, ih,
      marksOf_cons_of_none (mark?_of_op (.inl hi)), marksOf_cons_of_none (mark?_of_op (.inl hj)),
      marksOf_cons_of_none (mark?_of_op (.inl hk)), nil_append]
  | case2 known i j k rest h ih => rw [marksOf_cons, ih, ← marksOf_cons]
  | case3 => rfl

theorem mark?_foldOffset (sum access : Instr) : (foldOffset sum access).mark? = access.mark? := by
  rcases foldOffset_cases sum access with heq | ⟨d, s, w, base, b, o, -, -, -, hbase, -, -, -, -, -, heq⟩
  · rw [heq]
  · have hop : access.op.isInner = true := by
      cases hop : access.op <;> rw [hop] at hbase <;> cases hbase <;> rfl
    rw [heq, mark?_of_op (.inl hop)]
    exact mark?_of_op (.inl hop)

theorem marksOf_peepholePairs (code : Code) : marksOf (peepholePairs code) = marksOf code := by
  have hpairs : Expands (Replaces fun i k => k.mark? = i.mark?) code (peepholePairs code) :=
    expands_peepholePairs (P := fun _ => True) (fun _ => rfl) (fun h h' => h'.trans h) trivial
      (fun _ hm => (mark?_of_op (.inl (Opcode.isInner_of_isMove hm))).symm)
      (fun _ _ => ⟨trivial, mark?_foldOffset _ _⟩) fun _ _ => trivial
  refine hpairs.marksOf_eq ?_
  rintro i _ ⟨k, rfl, hk⟩
  rw [marksOf_cons, hk, marksOf_nil, append_nil]

theorem marksOf_markUnusedParams (code : Code) : marksOf (markUnusedParams code) = marksOf code := by
  obtain ⟨front, params, rest, hcode, -, hmarked, -⟩ := exists_expands_markers code
  have hnone : marksOf (markers code params) = [] := marksOf_eq_nil.mpr fun k hk => by
    obtain ⟨_, _, r, _, _, rfl⟩ := mem_markers hk
    rfl
  rw [hmarked, marksOf_append, marksOf_append, hnone, append_nil, ← marksOf_append, ← hcode]

theorem marksOf_spillCode (var : Reg) (s : SpillState) (code : Code) :
    marksOf (spillCode var s code).1 = marksOf code := by
  refine (expands_spillCode (Nat.le_refl _) code).marksOf_eq fun {i block} hb => ?_
  have hstore : marksOf (if var ∈ i.trackedDefs then
      [⟨.spillStore, [.reg var, .label var.name]⟩] else []) = [] := by
    split <;> rfl
  cases hb with
  | keep => rw [marksOf_cons, hstore, append_nil]
  | reload k =>
    rw [marksOf_cons_of_none rfl, marksOf_cons, hstore, append_nil,
      mark?_congr (op_mapUses _ _) (label?_mapUses _ _)]

theorem marksOf_removeDeadDefinitions (code : Code) :
    marksOf (removeDeadDefinitions code) = marksOf code := by
  obtain ⟨K, hexp, -⟩ := exists_expands_removeDeadDefinitions code
  refine hexp.marksOf_eq fun {i block} hb => ?_
  cases hb with
  | keep => rw [marksOf_cons, marksOf_nil, append_nil]
  | delete hpure =>
    rw [mark?_of_op (.inl (Opcode.isInner_of_isPure hpure))]
    rfl
  | @drop op hdrop =>
    have hcalls : op.isInner = true ∧ i.op.isInner = true := by
      generalize i.op = before at hdrop
      cases hdrop <;> exact ⟨rfl, rfl⟩
    rw [marksOf_cons_of_none (mark?_of_op (.inl hcalls.1)), mark?_of_op (.inl hcalls.2)]
    rfl

theorem marksOf_tailPart (p : Nat) (part : Code) : marksOf (tailPart code p part) = marksOf part := by
  induction part generalizing p with
  | nil => rfl
  | cons i part ih =>
    have hi : (tailAt code p i).mark? = i.mark? := by
      rcases (tailFor_tailAt code p i).or with heq | ht
      · rw [heq]
      · obtain ⟨hcall, -, htail⟩ := of_asTailCall? ht
        refine (mark?_of_op (.inr ?_)).trans (mark?_of_op (.inr hcall)).symm
        rcases op_of_isTail htail with h | h <;> rw [h] <;> rfl
    rw [tailPart_cons, marksOf_cons, ih, hi, ← marksOf_cons]

theorem marksOf_intrinsic? {callee : String} {dest : Reg} {args : List Reg}
    (h : intrinsic? callee dest args = some code) : marksOf code = [] := by
  unfold intrinsic? at h
  dsimp only at h
  split at h
  case h_7 =>
    split at h
    · split at h <;> cases h
      rfl
    · cases h
  case h_11 => cases h
  all_goals
    obtain ⟨x, -, rfl⟩ := Option.map_eq_some_iff.mp h
    rfl

theorem marksOf_inlineIntrinsics (code : Code) : marksOf (inlineIntrinsics code).1 = marksOf code := by
  rw [inlineIntrinsics, flatMap_map]
  refine marksOf_flatMap (fun i => ?_) code
  dsimp only
  cases hin : i.intrinsic? with
  | none => exact (marksOf_cons i []).trans (append_nil _)
  | some inlined =>
    unfold Instr.intrinsic? at hin
    split at hin
    · next hop =>
      simp only [Option.bind_eq_bind, Option.bind_eq_some_iff, pure, Option.some.injEq] at hin
      obtain ⟨dest, -, callee, -, block, hblock, rfl⟩ := hin
      rw [Instr.mark?_of_op (.inr (by rw [hop]; rfl))]
      exact marksOf_intrinsic? hblock
    · cases hin

/-- Machine code in the place of an instruction has its mark, if it is no branch without arms. -/
theorem MachineBlock.marksOf_eq {block : Code} (h : MachineBlock i block)
    (hb : i.op.isBranch = true → i.arms?.isSome = true) : marksOf block = i.mark?.toList := by
  have hnone : ∀ k ∈ block, k.isLabel = false → k ≠ i → k.mark? = none := by
    intro k hk hlabel hne
    refine mark?_eq_none (of_decide_eq_false hlabel) (Bool.eq_false_iff.mpr fun hkb => ?_)
    exact hne (h.branch k hk hkb)
  cases hl : i.isLabel with
  | true =>
    obtain ⟨k, tail, rfl, hk, hkl, htail⟩ := h.label hl
    have hrest : marksOf tail = [] := marksOf_eq_nil.mpr fun j hj => by
      refine hnone j (mem_cons_of_mem k hj) (htail j hj) ?_
      rintro rfl
      cases (htail j hj).symm.trans hl
    rw [marksOf_cons, hrest, append_nil, mark?, if_pos hk, hkl, mark?, if_pos hl]
  | false =>
    have hlabels := h.noLabel hl
    by_cases hbranch : i.op.isBranch = true
    · obtain ⟨a, ha⟩ := Option.isSome_iff_exists.mp (hb hbranch)
      obtain ⟨front, k, rfl, hk, hfront⟩ := h.arms a ha
      have hrest : marksOf front = [] := marksOf_eq_nil.mpr fun j hj => by
        refine hnone j (mem_append_left _ hj) (hlabels j (mem_append_left _ hj)) ?_
        rintro rfl
        cases (hfront j hj).symm.trans ha
      have hkb : k.op.isBranch = true := by
        by_contra hn
        cases (arms?_of_not_isBranch (Bool.eq_false_iff.mpr hn)).symm.trans hk
      have hki := h.branch k (mem_append_right front mem_cons_self) hkb
      rw [marksOf_append, hrest, hki, marksOf_cons, marksOf_nil, append_nil, nil_append]
    · have hi : i.mark? = none :=
        mark?_eq_none (of_decide_eq_false hl) (Bool.eq_false_iff.mpr hbranch)
      rw [hi]
      refine marksOf_eq_nil.mpr fun k hk => ?_
      by_cases hki : k = i
      · rw [hki, hi]
      · exact hnone k hk (hlabels k hk) hki

theorem marksOf_flatten {blocks : List Code} (h : Forall₂ MachineBlock code blocks)
    (hb : ∀ i ∈ code, i.op.isBranch = true → i.arms?.isSome = true) :
    marksOf blocks.flatten = marksOf code := by
  induction h with
  | nil => rfl
  | cons hi _ ih =>
    rw [forall_mem_cons] at hb
    rw [flatten_cons, marksOf_append, hi.marksOf_eq hb.1, ih hb.2, ← marksOf_cons]

theorem BodyPass.marksOf_eq (h : BodyPass code out) (hc : IsLaidOut code) : marksOf out = marksOf code := by
  cases h with
  | foldAddresses => exact marksOf_foldFrom [] code
  | peephole =>
    rw [deleteNops, marksOf_filter, ClosureCodegen.peephole, marksOf_filter, marksOf_peepholePairs]
    · intro i hi
      simp only [addsNothing, Bool.not_eq_false', Bool.and_eq_true, decide_eq_true_eq] at hi
      exact mark?_of_op (.inl (by rw [hi.1.1]; rfl))
    · intro i hi
      have hop : i.op = .nop := by simpa using hi
      exact mark?_of_op (.inl (by rw [hop]; rfl))
  | allocate hvisit h =>
    obtain ⟨left, registers, hleft, hcode, -⟩ :=
      exists_renamed_of_allocateVisiting (P := fun c => marksOf c = marksOf code)
        hvisit h (marksOf_markUnusedParams code)
        fun _ h => (marksOf_spillCode _ _ _).trans h
    rw [hcode, marksOf_map fun i => ⟨i.op_mapRegs _, i.label?_mapRegs _⟩, marksOf_removeDeadDefinitions,
      hleft]
  | assignParams h =>
    obtain ⟨-, floats, ints, -, -, rfl⟩ := assignParams_eq_ok h
    exact marksOf_map (fun i => ⟨i.op_mapRegs _, i.label?_mapRegs _⟩) code
  | makeTailCalls h => rw [makeTailCalls_eq_ok h, marksOf_tailPart]
  | inlineIntrinsics => exact marksOf_inlineIntrinsics code
  | expand h =>
    cases code with
    | nil =>
      obtain ⟨_, _, hm, -⟩ := hc.laidOut
      cases hm
    | cons i code =>
      obtain ⟨-, blocks, rfl, hblocks⟩ := exists_machineBlocks h
      refine marksOf_flatten hblocks fun k hk hb => ?_
      obtain ⟨n, hn⟩ := hc.exists_thenLabel hk hb
      rw [arms?_eq_some_iff.mpr ⟨hb, hn, endifOf?_thenLabel n⟩]
      rfl

theorem IsLaidOut.passes (hc : IsLaidOut code) (h : Relation.ReflTransGen BodyPass code out) :
    marksOf out = marksOf code := by
  induction h with
  | refl => rfl
  | tail _ hstep ih => exact (hstep.marksOf_eq (hc.congr ih)).trans ih

/-- If the definitions of a program have different names, none of them the name of the top-level body
or the label of an arm, then the bodies of the program share no label. In each of them jumps lead over
arms only. Whatever passes a body goes through, its branches and labels stay the same, and its
conditionals properly nested. -/
theorem Program.lowerBodies_properlyNested (hnames : (p.definitions.map Definition.name).Nodup)
    (hmain : ∀ d ∈ p.definitions, d.name ≠ topLevelName)
    (harms : ∀ d ∈ p.definitions, ∀ n, d.name ≠ thenLabel n ∧ d.name ≠ endifLabel n)
    (h : p.lowerBodies s = .ok bodies s') :
    (bodies.flatMap labelNames).Nodup ∧ ∀ body ∈ bodies, JumpsOverArms body ∧
      ∀ out, Relation.ReflTransGen BodyPass body out →
        marksOf out = marksOf body ∧ ProperlyNested out := by
  have hbodies := numberedBodies_of_lowerBodies h
  have hentries : ∀ f ∈ p.definitions.map Definition.name ++ [topLevelName],
      ∀ n, f ≠ thenLabel n ∧ f ≠ endifLabel n := by
    have htop : IsProgramName topLevelName := .of_length (by decide) (by decide)
    simp only [forall_mem_append, forall_mem_map, forall_mem_singleton]
    exact ⟨harms, fun n => htop.label _ Nat.toDigits_ne_nil (Decimal.all_isDigit_toDigits n)⟩
  have hnumbered : ∀ f ∈ p.definitions.map Definition.name ++ [topLevelName],
      ∀ lo hi, ¬NumberedLabel lo hi f := by
    rintro f hf lo hi ⟨n, -, -, hn⟩
    exact hn.elim (hentries f hf n).1 (hentries f hf n).2
  refine ⟨hbodies.nodup ?_ hnumbered, fun body hbody => ?_⟩
  · refine nodup_append.mpr ⟨hnames, nodup_singleton _, ?_⟩
    rintro f hf g hg rfl
    obtain ⟨d, hd, rfl⟩ := mem_map.mp hf
    exact hmain d hd (mem_singleton.mp hg)
  · obtain ⟨f, hf, lo, hi, rest, rfl, hs⟩ := hbodies.exists_structured hbody
    have hlaid := hs.isLaidOut (hnumbered f hf lo hi)
    have hentry : JumpsOverArms [.labelled f] :=
      .single nofun fun _ n hn => (hentries f hf n).1 (Option.some.inj hn)
    refine ⟨hentry.append hs.jumpsOverArms, fun out hpasses => ?_⟩
    have hm := hlaid.passes hpasses
    exact ⟨hm, (hlaid.congr hm).properlyNested⟩

/-- A function with one conditional in the first arm of another. -/
def nestedChoice : Definition where
  binding := ⟨"f", .fn [.int, .int] .int⟩
  params := [⟨"n", .int⟩, ⟨"m", .int⟩]
  captured := []
  body := .cond .le "n" "m" (.cond .eq "n" "m" (.int 0) (.var "m")) (.var "n")

theorem Program.lowerBodies_properlyNested_nestedChoice :
    ∃ bodies s', (⟨0, [nestedChoice], .unit⟩ : Program).lowerBodies {} = .ok bodies s' ∧
      bodies.map (fun body => (marksOf body).length) = [7, 1] ∧ (bodies.flatMap labelNames).Nodup ∧
      ∀ body ∈ bodies, JumpsOverArms body ∧ ProperlyNested (deleteNops (peephole body)) := by
  have hname : IsProgramName nestedChoice.name := .of_length (by decide) (by decide)
  have h := Program.lowerBodies_properlyNested (p := ⟨0, [nestedChoice], .unit⟩) (s := {})
    (nodup_singleton _) (by decide)
    (forall_mem_singleton.mpr fun n =>
      hname.label _ Nat.toDigits_ne_nil (Decimal.all_isDigit_toDigits n)) rfl
  refine ⟨_, _, rfl, by decide, h.1, fun body hbody => ⟨(h.2 body hbody).1, ?_⟩⟩
  exact ((h.2 body hbody).2 _ (.single (.peephole body))).2

end ClosureCodegen
