import ClosureCodegen.Proofs.Optimizer.Provenance

/-!
# Forming vector accesses keeps the effect of code

The accesses of a run go to different addresses, and those of a run of loads to registers of different
names.  So it does not matter in which order they are made, and one vector access whose active lanes
they are has the same effect.  Alignment changes which lanes of a vector access are active, but not
what they access.

* `Merges`: blocks of accesses are replaced by others of the same effect.  Both passes do that, if
  every access has the operands it needs.
* `ends_vectorize`, `ends_alignVectors`: both passes fail only if the sum of an offset and some words
  leaves the range of a word.
-/

namespace ClosureCodegen
open List Outcome Word Hart ScalarAccess

variable {i : Instr} {code b out : Code} {h h' g : Hart} {o : Word} {a last next : ScalarAccess}
  {n k : Nat} {v : Vectorized}

open Instr

/-! ## Blocks of accesses -/

/-- An access has the operands that its opcode needs, and its mask names four lanes at most. -/
def Instr.IsPlain (i : Instr) : Prop :=
  match i.op.family with
  | .load | .store => ∃ (r s : Reg) (o : Word), i.operands = [.reg r, .reg s, .imm o]
  | .vectorLoad | .vectorStore => ∃ b p q r s o k, i = vector i.op b p q r s o k ∧ k.toNat < 16
  | _ => True

theorem Instr.IsTidy.isPlain (hi : i.IsTidy) : i.IsPlain := by
  have hvector : i.op = .vlw ∨ i.op = .vsw →
      ∃ b p q r s o k, i = vector i.op b p q r s o k ∧ k.toNat < 16 := by
    intro hop
    obtain ⟨b, p, q, r, s, o, k, he, -, hk⟩ := hi.eq_vector hop
    exact ⟨b, p, q, r, s, o, k, he, hk⟩
  have hfit := fits_of_decodes hi.decodes
  obtain ⟨op, os⟩ := i
  cases op with
  | lw | flw | sw | fsw => exact hfit
  | vlw => exact hvector (.inl rfl)
  | vsw => exact hvector (.inr rfl)
  | _ => trivial

/-- Makes accesses, one after another. -/
def accessAll (code : Code) (h : Hart) : Option Hart :=
  code.foldlM (fun h i => i.access? h) h

theorem accessAll_cons (i : Instr) (code : Code) (h : Hart) :
    accessAll (i :: code) h = (i.access? h).bind (accessAll code) := foldlM_cons

theorem isStraight_of_accessAll (ha : accessAll code h = some h') : ∀ i ∈ code, i.IsStraight := by
  induction code generalizing h with
  | nil => exact forall_mem_nil _
  | cons i code ih =>
    rw [accessAll_cons, Option.bind_eq_some_iff] at ha
    obtain ⟨g, hg, ha⟩ := ha
    exact forall_mem_cons.mpr ⟨isStraight_of_access? hg, ih ha⟩

theorem effectOf_of_accessAll {env : Environment} (ha : accessAll code h = some h') :
    effectOf env code h = h' := by
  induction code generalizing h with
  | nil =>
    cases ha
    rfl
  | cons i code ih =>
    rw [accessAll_cons, Option.bind_eq_some_iff] at ha
    obtain ⟨g, hg, ha⟩ := ha
    rw [effectOf_cons, effect_of_access? hg, ih ha]

/-- A block of accesses, and another one that does the same. -/
structure Refines (a b : Code) : Prop where
  ne_nil : a ≠ []
  same : ∀ h, ∃ h', accessAll a h = some h' ∧ accessAll b h = some h'
  plain : ∀ i ∈ b, i.IsPlain
  tidy : (∀ i ∈ a, i.IsTidy) → ∀ i ∈ b, i.IsTidy

theorem Refines.isStraight {a : Code} (h : Refines a b) : ∀ i, i ∈ a ∨ i ∈ b → i.IsStraight := by
  obtain ⟨h', ha, hb⟩ := h.same ⟨fun _ => 0, fun _ => 0⟩
  exact fun i hi => hi.elim (isStraight_of_accessAll ha i) (isStraight_of_accessAll hb i)

theorem Refines.sameEffect {a : Code} (h : Refines a b) : SameEffect a b where
  ne_nil := h.ne_nil
  straight i hi := h.isStraight i (.inl hi)
  straight' i hi := h.isStraight i (.inr hi)
  effect env g := by
    obtain ⟨g', hga, hgb⟩ := h.same g
    rw [effectOf_of_accessAll hga, effectOf_of_accessAll hgb]

/-- Blocks of accesses are replaced by others that do the same. -/
inductive Merges : Code → Code → Prop where
  | nil : Merges [] []
  | keep (i : Instr) {code out : Code} : Merges code out → Merges (i :: code) (i :: out)
  | block {a b code out : Code} : Refines a b → Merges code out → Merges (a ++ code) (b ++ out)

theorem Merges.simplifies (h : Merges code out) (hcode : ∀ i ∈ code, i.IsTidy) :
    Simplifies IsTidy code out := by
  induction h with
  | nil => exact .refl []
  | keep i _ ih => exact (ih (forall_mem_cons.mp hcode).2).cons i
  | @block a b code out hab _ ih =>
    rw [forall_mem_append] at hcode
    exact (Simplifies.front hab.sameEffect (hab.tidy hcode.1) code).trans
      ((ih hcode.2).append_left b)

theorem Merges.isPlain (h : Merges code out) (hcode : ∀ i ∈ code, i.IsPlain) :
    ∀ i ∈ out, i.IsPlain := by
  induction h with
  | nil => exact hcode
  | keep i _ ih =>
    rw [forall_mem_cons] at hcode ⊢
    exact ⟨hcode.1, ih hcode.2⟩
  | block hab _ ih =>
    rw [forall_mem_append] at hcode ⊢
    exact ⟨hab.plain, ih hcode.2⟩

/-! ## Alignment -/

theorem eq_of_length_eq_four {α : Type} {as : List α} (h : as.length = 4) :
    ∃ a b c d, as = [a, b, c, d] := by
  match as, h with
  | [a, b, c, d], _ => exact ⟨a, b, c, d, rfl⟩

theorem isPlain_vector {op : Opcode} (hop : op = .vlw ∨ op = .vsw) (b p q r s : Reg) (o : Word)
    {k : BitVec 8} (hk : k.toNat < 16) : (vector op b p q r s o k).IsPlain := by
  rcases hop with rfl | rfl <;> exact ⟨b, p, q, r, s, o, k, rfl, hk⟩

theorem Instr.IsPlain.eq_vector (hi : i.IsPlain) (hop : i.op = .vlw ∨ i.op = .vsw) :
    ∃ b p q r s o k, i = vector i.op b p q r s o k ∧ k.toNat < 16 := by
  obtain ⟨op, os⟩ := i
  rcases hop with rfl | rfl <;> exact hi

theorem access?_vector {op : Opcode} {b p q r s p' q' r' s' : Reg} {o' : Word} {k k' : BitVec 8}
    (hop : op = .vlw ∨ op = .vsw) (h : ∀ a, activeLanes k' (laneAddress a o') [p', q', r', s'] =
      activeLanes k (laneAddress a o) [p, q, r, s]) (g : Hart) :
    ∃ g', (vector op b p q r s o k).access? g = some g' ∧
      (vector op b p' q' r' s' o' k').access? g = some g' := by
  rcases hop with rfl | rfl
  · refine ⟨_, rfl, ?_⟩
    change some (g.loadLanes _) = some (g.loadLanes _)
    rw [h]
  · refine ⟨_, rfl, ?_⟩
    change some (g.storeLanes _) = some (g.storeLanes _)
    rw [h]

theorem refines_alignLanes {k : Instr} (hi : i.IsPlain) (h : i.alignLanes = .ok k) :
    k = i ∨ Refines [i] [k] := by
  rcases alignLanes_eq_ok h with rfl | ⟨base, r₀, r₁, r₂, r₃, offset, mask, hop, hoperands, hmask, -, rfl⟩
  · exact .inl rfl
  refine .inr ?_
  obtain ⟨b, p, q, r, s, o, m, he, hm⟩ := hi.eq_vector hop
  obtain ⟨op, os⟩ := i
  dsimp only at hop he hoperands ⊢
  subst hoperands
  cases he
  -- the new lanes are four again
  have hlength : ([p, q, r, s].drop (idleLanes mask) ++ List.replicate (idleLanes mask) zeroReg).length =
      4 := by
    have := idleLanes_lt hm hmask
    simp only [length_append, length_drop, length_cons, length_nil,
      length_replicate]
    omega
  obtain ⟨p', q', r', s', hlanes⟩ := eq_of_length_eq_four hlength
  have hoperands : [Operand.reg p, .reg q, .reg r, .reg s].drop (idleLanes mask) ++
      List.replicate (idleLanes mask) (.reg zeroReg) = [.reg p', .reg q', .reg r', .reg s'] := by
    have := congrArg (List.map Operand.reg) hlanes
    simpa only [map_append, map_drop, map_replicate, map_cons, map_nil]
      using this
  have hm' : (mask >>> idleLanes mask).toNat < 16 := by
    rw [BitVec.toNat_ushiftRight]
    exact Nat.lt_of_le_of_lt (Nat.shiftRight_le _ _) hm
  rw [hoperands]
  refine ⟨nofun, fun g => ?_, forall_mem_singleton.mpr (isPlain_vector hop _ _ _ _ _ _ hm'),
    fun htidy => forall_mem_singleton.mpr ?_⟩
  · obtain ⟨g', hg, hg'⟩ := access?_vector (b := b) hop
      (fun a => hlanes ▸ activeLanes_align hmask hm rfl a offset) g
    refine ⟨g', ?_, ?_⟩
    · rw [accessAll_cons]
      exact Option.bind_eq_some_iff.mpr ⟨g', hg, rfl⟩
    · rw [accessAll_cons]
      exact Option.bind_eq_some_iff.mpr ⟨g', hg', rfl⟩
  · obtain ⟨b, p, q, r, s, o, m, he, hsp, -⟩ := (htidy _ (mem_singleton_self _)).eq_vector hop
    cases he
    refine isTidy_vector hop (fun l hl => ?_) hm'
    rw [← hlanes, mem_append] at hl
    rcases hl with hl | hl
    · exact hsp l (mem_of_mem_drop hl)
    · rw [eq_of_mem_replicate hl]
      rfl

theorem merges_alignVectors (hcode : ∀ i ∈ code, i.IsPlain) (h : alignVectors code = .ok out) :
    Merges code out := by
  have hall := mapM_eq_ok.mp h
  clear h
  induction hall with
  | nil => exact .nil
  | @cons i k code out hik _ ih =>
    rw [forall_mem_cons] at hcode
    rcases refines_alignLanes hcode.1 hik with rfl | hblock
    · exact .keep k (ih hcode.2)
    · exact .block hblock (ih hcode.2)

theorem simplifies_alignVectors (hcode : ∀ i ∈ code, i.IsTidy) (h : alignVectors code = .ok out) :
    Simplifies IsTidy code out :=
  (merges_alignVectors (fun i hi => (hcode i hi).isPlain) h).simplifies hcode

/-! ## Scalar accesses -/

def ScalarAccess.instr (a : ScalarAccess) : Instr :=
  if a.op.isScalarLoad then ⟨a.op, [.reg a.value, .reg a.base, .imm a.offset]⟩
  else ⟨a.op, [.reg a.base, .reg a.value, .imm a.offset]⟩

def ScalarAccess.lane (base : Word) (a : ScalarAccess) : Word × Reg := (base + a.offset, a.value)

/-- Scalar accesses are made by loads and stores. -/
def ScalarAccess.IsAccess (a : ScalarAccess) : Prop :=
  a.op.family = if a.op.isScalarLoad then .load else .store

theorem instr_eq_of_scalarAccess? (hi : i.IsPlain) (h : i.scalarAccess? = some a) :
    a.instr = i ∧ a.IsAccess := by
  obtain ⟨op, os⟩ := i
  cases op with
  | lw | flw | sw | fsw =>
    obtain ⟨r, s, o, ho⟩ := hi
    dsimp only at ho
    subst ho
    obtain rfl := Option.some.inj h
    exact ⟨rfl, rfl⟩
  | _ => cases h

theorem ScalarAccess.IsAccess.apart (ha : a.IsAccess) (h : a.instr.IsTidy) :
    a.value.names .stackPointer = false := by
  unfold IsAccess at ha
  unfold instr at h
  split at ha
  · next hload =>
    rw [if_pos hload] at h
    exact ((isTidy_load ha).mp h).2
  · next hload =>
    rw [if_neg hload] at h
    exact (isTidy_store ha).mp h

section Runs

variable {first : ScalarAccess} {accesses : List ScalarAccess}

theorem accessAll_loads (h : Hart)
    (hload : ∀ a ∈ accesses, a.op.isScalarLoad = true ∧ a.op.family = .load)
    (hbase : ∀ a ∈ accesses, a.base.name = first.base.name ∧ a.value.name ≠ first.base.name)
    (hget : g.get first.base = h.get first.base) (hmemory : g.memory = h.memory) :
    accessAll (accesses.map instr) g =
      some ((accesses.map (lane (h.get first.base))).foldl
        (fun g (a, r) => g.set r (h.memory a)) g) := by
  induction accesses generalizing g with
  | nil => rfl
  | cons a accesses ih =>
    rw [forall_mem_cons] at hload hbase
    have haccess : a.instr.access? g =
        some (g.set a.value (h.memory (h.get first.base + a.offset))) := by
      simp only [instr, if_pos hload.1.1, access?, hload.1.2, hmemory,
        get_congr hbase.1.1, hget]
    rw [map_cons, accessAll_cons, haccess, Option.bind_some, map_cons, foldl_cons,
      ih hload.2 hbase.2 _ _]
    · rfl
    · rw [get_set_of_ne hbase.1.2.symm, hget]
    · rw [memory_set, hmemory]

theorem accessAll_stores (h : Hart)
    (hstore : ∀ a ∈ accesses, a.op.isScalarLoad = false ∧ a.op.family = .store)
    (hbase : ∀ a ∈ accesses, a.base.name = first.base.name) (hget : ∀ r, g.get r = h.get r) :
    accessAll (accesses.map instr) g =
      some ((accesses.map (lane (h.get first.base))).foldl
        (fun g (a, r) => g.write a (h.get r)) g) := by
  induction accesses generalizing g with
  | nil => rfl
  | cons a accesses ih =>
    rw [forall_mem_cons] at hstore hbase
    have haccess : a.instr.access? g =
        some (g.write (h.get first.base + a.offset) (h.get a.value)) := by
      simp only [instr, if_neg (Bool.eq_false_iff.mp hstore.1.1), access?, hstore.1.2,
        hget, get_congr hbase.1]
    rw [map_cons, accessAll_cons, haccess, Option.bind_some, map_cons, foldl_cons,
      ih hstore.2 hbase.2 fun r => ?_]
    · rfl
    · rw [get_write, hget]

/-! ## Runs -/

/-- Accesses of one kind and one base, at offsets that go on by a step. -/
structure IsRun (step : Word) (first : ScalarAccess) (accesses : List ScalarAccess) : Prop where
  same : ∀ a ∈ accesses, a.op = first.op ∧ a.base.name = first.base.name ∧
    a.value.name ≠ first.base.name
  offset : ∀ k a, accesses[k]? = some a → a.offset = first.offset + step * BitVec.ofNat 32 k
  nodup : first.op.isScalarLoad = true → (accesses.map fun a => a.value.name).Nodup

theorem extendsRun_eq_ok_true {run : List ScalarAccess} {step : Word}
    (h : extendsRun run last next step = .ok true) :
    next.op = last.op ∧
      next.base.name = last.base.name ∧ next.offset = last.offset + step ∧
      next.value.name ≠ last.base.name ∧
      (next.op.isScalarLoad = true → ∀ a ∈ run, a.value.name ≠ next.value.name) := by
  unfold extendsRun at h
  split at h
  · cases h
  next hsame =>
  rw [not_or, not_ne_iff, not_ne_iff] at hsame
  obtain ⟨sum, hsum, h⟩ := bind_eq_ok.mp h
  rw [eq_add_of_add? (Fault.liftM_eq_ok.mp hsum)] at h
  split at h
  · cases h
  next hoffset =>
  split at h
  · cases h
  next hvalue =>
  refine ⟨hsame.1, hsame.2, not_ne_iff.mp hoffset, hvalue, fun hload a ha hname => ?_⟩
  have hnone := Except.ok.inj h
  rw [hload, Bool.true_and, Bool.not_eq_true', any_eq_false] at hnone
  exact hnone a ha (beq_iff_eq.mpr hname)

theorem IsRun.singleton {step : Word} (h : first.value.name ≠ first.base.name) :
    IsRun step first [first] where
  same := forall_mem_singleton.mpr ⟨rfl, rfl, h⟩
  offset k a ha := by
    rw [getElem?_singleton] at ha
    split at ha
    · next hk =>
      cases ha
      rw [hk]
      exact (BitVec.add_zero _).symm
    · cases ha
  nodup _ := nodup_singleton _

theorem IsRun.snoc {step : Word} {run : List ScalarAccess} (h : IsRun step first run)
    (hlast : run.getLast? = some last) (hnext : extendsRun run last next step = .ok true) :
    IsRun step first (run ++ [next]) := by
  obtain ⟨hop, hbase, hoffset, hvalue, hfresh⟩ := extendsRun_eq_ok_true hnext
  have hmem := mem_of_getLast? hlast
  obtain ⟨hlop, hlbase, -⟩ := h.same last hmem
  rw [getLast?_eq_getElem?] at hlast
  have hpos := length_pos_of_mem hmem
  refine ⟨?_, fun k a ha => ?_, fun hload => ?_⟩
  · rw [forall_mem_append, forall_mem_singleton]
    exact ⟨h.same, hop.trans hlop, hbase.trans hlbase, hlbase ▸ hvalue⟩
  · rcases Nat.lt_or_ge k run.length with hk | hk
    · rw [getElem?_append_left hk] at ha
      exact h.offset k a ha
    · rw [getElem?_append_right hk, getElem?_singleton] at ha
      split at ha
      · next hk' =>
        cases ha
        obtain ⟨m, rfl⟩ : ∃ m, k = m + 1 := ⟨k - 1, by omega⟩
        rw [show run.length - 1 = m by omega] at hlast
        rw [hoffset, h.offset m last hlast, BitVec.ofNat_add, BitVec.mul_add, BitVec.add_assoc]
        congr 2
        exact (BitVec.mul_one step).symm
      · cases ha
  · rw [map_append, nodup_append]
    refine ⟨h.nodup hload, nodup_singleton _, ?_⟩
    rintro x hx y hy rfl
    obtain ⟨a, ha, hax⟩ := mem_map.mp hx
    rw [map_singleton, mem_singleton] at hy
    exact hfresh (by rw [hop, hlop, hload]) a ha (hax.trans hy)

theorem growRun_eq_ok {step : Word} {room : Nat} {run grown : List ScalarAccess} {rest : Code}
    (hrest : ∀ i ∈ rest, i.IsPlain) (hrun : IsRun step first run) (hlast : run.getLast? = some last)
    (h : growRun step room run last rest = .ok grown) :
    ∃ more back, grown = run ++ more ∧ rest = more.map instr ++ back ∧
      (∀ a ∈ more, a.IsAccess) ∧ more.length ≤ room ∧ IsRun step first grown := by
  fun_induction growRun step room run last rest with
  | case1 | case2 | case3 =>
    cases h
    exact ⟨[], _, (append_nil _).symm, rfl, forall_mem_nil _, Nat.zero_le _, hrun⟩
  | case4 room run last i rest next hnext ih =>
    rw [forall_mem_cons] at hrest
    obtain ⟨extended, hextended, h⟩ := bind_eq_ok.mp h
    split at h
    · next htrue =>
      subst htrue
      obtain ⟨more, back, rfl, rfl, hmore, hlength, hgrown⟩ :=
        ih hrest.2 (hrun.snoc hlast hextended) getLast?_concat h
      obtain ⟨rfl, haccess⟩ := instr_eq_of_scalarAccess? hrest.1 hnext
      exact ⟨next :: more, back, by rw [append_assoc, singleton_append], rfl,
        forall_mem_cons.mpr ⟨haccess, hmore⟩, Nat.succ_le_succ hlength, hgrown⟩
    · cases h
      exact ⟨[], _, (append_nil _).symm, rfl, forall_mem_nil _, Nat.zero_le _, hrun⟩

/-! ## The lanes of a run -/

theorem getLsbD_leadingMask (hk : k < 8) : (leadingMask n).getLsbD k = decide (k < n) := by
  rw [leadingMask, Nat.one_shiftLeft, BitVec.getLsbD_ofNat, Nat.testBit_two_pow_sub_one,
    decide_eq_true hk, Bool.true_and]

theorem getLsbD_trailingMask (hk : k < 8) :
    (trailingMask n).getLsbD k = decide (4 - n ≤ k ∧ k - (4 - n) < n) := by
  rw [trailingMask, BitVec.getLsbD_shiftLeft, getLsbD_leadingMask (by omega), decide_eq_true hk,
    Bool.true_and, Bool.decide_and, show laneCount = 4 from rfl, ← decide_not]
  congr 2
  exact propext Nat.not_lt

theorem laneAddress_down (base o : Word) (hk : k < 4) :
    laneAddress base (o - ofCount 3) (3 - k) = base + (o + -size * BitVec.ofNat 32 k) := by
  simp only [laneAddress, ofCount, size]
  rcases k with _ | _ | _ | _ | k
  all_goals first | omega | bv_omega

theorem activeLanes_run {run : Run} (base : Word)
    (hrun : IsRun (if run.descending then -size else size) first run.accesses)
    (hlength : run.accesses.length ≤ 4) :
    (activeLanes run.mask (laneAddress base (if run.descending then
      first.offset - ofCount (laneCount - 1) else first.offset)) run.lanes).Perm
        (run.accesses.map (lane base)) := by
  obtain ⟨accesses, descending⟩ := run
  dsimp only at hrun hlength ⊢
  cases descending with
  | false =>
    simp only [Run.mask, Run.lanes, Bool.false_eq_true, if_false] at hrun ⊢
    rw [activeLanes_append, activeLanes_eq_map, activeLanes_eq_nil, append_nil]
    · refine List.Perm.of_eq (ext_getElem (by simp) fun k h₁ h₂ => ?_)
      have hk : k < accesses.length := by simpa using h₂
      simp only [getElem_map, getElem_zipIdx, Nat.zero_add, lane,
        hrun.offset k _ (getElem?_eq_getElem hk), laneAddress, ofCount, BitVec.add_assoc]
    · intro k hk
      simp only [length_replicate, length_map, laneCount] at hk
      rw [BitVec.getLsbD_ushiftRight, length_map, getLsbD_leadingMask (by omega)]
      exact decide_eq_false (by omega)
    · intro k hk
      rw [length_map] at hk
      rw [getLsbD_leadingMask (by omega)]
      exact decide_eq_true hk
  | true =>
    simp only [Run.mask, Run.lanes, if_true] at hrun ⊢
    rw [reverse_append, reverse_replicate, activeLanes_append, activeLanes_eq_nil,
      activeLanes_eq_map, nil_append]
    · -- the last lane makes the first access
      refine List.Perm.trans (.of_eq (ext_getElem (by simp) fun k h₁ h₂ => ?_))
        (reverse_perm _)
      have hk : k < accesses.length := by simpa using h₂
      have hindex : accesses.length - 1 - k < accesses.length := by omega
      simp only [getElem_map, getElem_zipIdx, getElem_reverse, length_map,
        length_replicate, Nat.zero_add, lane, laneCount,
        hrun.offset _ _ (getElem?_eq_getElem hindex)]
      rw [← laneAddress_down base first.offset (by omega)]
      congr 2
      omega
    · intro k hk
      simp only [length_reverse, length_map] at hk
      simp only [BitVec.getLsbD_ushiftRight, length_replicate, length_map, laneCount]
      rw [getLsbD_trailingMask (by omega)]
      exact decide_eq_true (by omega)
    · intro k hk
      simp only [length_replicate, length_map, laneCount] at hk
      rw [getLsbD_trailingMask (by omega)]
      exact decide_eq_false (by omega)

theorem toNat_mask_lt {run : Run} (hlength : run.accesses.length ≤ 4) : run.mask.toNat < 16 := by
  have hall : ∀ n ≤ 4, (leadingMask n).toNat < 16 ∧ (trailingMask n).toNat < 16 := by decide
  obtain ⟨hleading, htrailing⟩ := hall _ hlength
  unfold Run.mask
  split
  · exact htrailing
  · exact hleading

theorem length_lanes {run : Run} (hlength : run.accesses.length ≤ 4) : run.lanes.length = 4 := by
  have hall : (run.accesses.map value ++ List.replicate
      (laneCount - (run.accesses.map value).length) zeroReg).length = 4 := by
    simp only [length_append, length_map, length_replicate, laneCount]
    omega
  simp only [Run.lanes]
  split
  · rw [length_reverse, hall]
  · exact hall

theorem step_ne {base : Word} {down : Bool} {j : Nat} (hjk : j < k) (hk : k < 4) :
    base + (o + (if down then -size else size) * BitVec.ofNat 32 j) ≠
      base + (o + (if down then -size else size) * BitVec.ofNat 32 k) := by
  have hsteps : ∀ down : Bool, ∀ k < 4, ∀ j < k,
      (if down then -size else size) * BitVec.ofNat 32 j ≠
        (if down then -size else size) * BitVec.ofNat 32 k := by decide
  exact fun h => hsteps down k hk j hjk
    ((BitVec.add_right_inj o).mp ((BitVec.add_right_inj base).mp h))

theorem refines_run {run : Run} {k : Instr}
    (hrun : IsRun (if run.descending then -size else size) first run.accesses)
    (hpos : 0 < run.accesses.length) (hlength : run.accesses.length ≤ 4)
    (haccess : ∀ a ∈ run.accesses, a.IsAccess) (h : run.vector first = .ok k) :
    Refines (run.accesses.map instr) [k] := by
  obtain ⟨offset, hoffset, rfl⟩ := Run.vector_eq_ok h
  obtain ⟨p, q, r, s, hlanes⟩ := eq_of_length_eq_four (length_lanes hlength)
  have hperm := fun base => activeLanes_run base hrun hlength
  rw [← hoffset] at hperm
  simp only [hlanes] at hperm ⊢
  have hop : (if first.op.isScalarLoad then Opcode.vlw else .vsw) = .vlw ∨
      (if first.op.isScalarLoad then Opcode.vlw else .vsw) = .vsw := by
    cases first.op.isScalarLoad
    · exact .inr rfl
    · exact .inl rfl
  have hmask := toNat_mask_lt hlength
  have hfamily : ∀ a ∈ run.accesses, a.op.isScalarLoad = first.op.isScalarLoad ∧
      a.op.family = if first.op.isScalarLoad then .load else .store := by
    intro a ha
    have hop := (hrun.same a ha).1
    exact ⟨by rw [hop], hop ▸ haccess a ha⟩
  refine ⟨fun heq => ?_, fun g => ?_,
    forall_mem_singleton.mpr (isPlain_vector hop first.base p q r s offset hmask),
    fun htidy => forall_mem_singleton.mpr ?_⟩
  · rw [map_eq_nil_iff.mp heq] at hpos
    cases hpos
  · cases hload : first.op.isScalarLoad with
    | true =>
      simp only [hload, if_true] at hfamily ⊢
      have hnodup : ((run.accesses.map (lane (g.get first.base))).map
          fun l => l.2.name).Nodup := by
        rw [map_map]
        exact hrun.nodup hload
      refine ⟨_, accessAll_loads g hfamily (fun a ha => (hrun.same a ha).2) rfl rfl, ?_⟩
      exact congrArg some (loadLanes_perm (hperm _).symm hnodup).symm
    | false =>
      simp only [hload, Bool.false_eq_true, if_false] at hfamily ⊢
      have hnodup : ((run.accesses.map (lane (g.get first.base))).map Prod.fst).Nodup := by
        rw [map_map]
        refine pairwise_iff_getElem.mpr fun j k hj hk hjk => ?_
        rw [length_map] at hj hk
        simp only [getElem_map, Function.comp_apply, lane,
          hrun.offset j _ (getElem?_eq_getElem hj), hrun.offset k _ (getElem?_eq_getElem hk)]
        exact step_ne hjk (by omega)
      refine ⟨_, accessAll_stores g hfamily (fun a ha => (hrun.same a ha).2.1) fun _ => rfl, ?_⟩
      exact congrArg some (storeLanes_perm (hperm _).symm hnodup).symm
  · refine isTidy_vector hop (fun l hl => ?_) hmask
    rw [← hlanes] at hl
    rcases mem_lanes hl with rfl | ⟨a, ha, rfl⟩
    · rfl
    · exact (haccess a ha).apart (htidy _ (mem_map_of_mem ha))

end Runs

/-! ## Vector formation -/

theorem merges_vectorize (hcode : ∀ i ∈ code, i.IsPlain) (h : vectorize code = .ok v) :
    Merges code v.code := by
  fun_induction vectorize code generalizing v with
  | case1 =>
    cases h
    exact .nil
  | case2 i rest ihrun ih =>
    rw [← vectorize] at h
    rcases vectorize_cons_eq_ok h with ⟨run, first, later, access, tail, hfind, haccesses, haccess,
      htail, rfl⟩ | ⟨tail, -, htail, rfl⟩
    · obtain ⟨_, _, first', heq, hfirst, hne, hlength, hgrow⟩ := findRun?_eq_some hfind
      cases heq
      rw [forall_mem_cons] at hcode
      obtain ⟨more, back, hmore, rfl, hall, hroom, hrun⟩ :=
        growRun_eq_ok hcode.2 (.singleton hne) rfl hgrow
      obtain ⟨rfl, hfirst'⟩ := instr_eq_of_scalarAccess? hcode.1 hfirst
      rw [hmore, singleton_append, List.cons.injEq] at haccesses
      obtain ⟨rfl, rfl⟩ := haccesses
      have hdrop : (more.map instr ++ back).drop more.length = back :=
        drop_left' (length_map _)
      have htail' := @ihrun more tail
      rw [hdrop] at htail htail'
      have hblock := refines_run hrun (by omega)
        (by rw [hmore, length_append]; exact Nat.add_le_add_left hroom 1)
        (by rw [hmore]; exact forall_mem_cons.mpr ⟨hfirst', hall⟩) haccess
      rw [hmore] at hblock
      exact .block hblock (htail' (forall_mem_append.mp hcode.2).2 htail)
    · rw [forall_mem_cons] at hcode
      exact .keep i (ih hcode.2 htail)

theorem simplifies_vectorize (hcode : ∀ i ∈ code, i.IsTidy) (h : vectorize code = .ok v) :
    Simplifies IsTidy code v.code :=
  (merges_vectorize (fun i hi => (hcode i hi).isPlain) h).simplifies hcode

/-! ## Failures -/

section Failures

variable {E : Failure → Prop}

/-- What the passes add to an offset and subtract from it; if that fails, then in a certain way. -/
structure RunSteps (E : Failure → Prop) (o : Word) : Prop where
  up : (liftM (Word.add? o Word.size) : Outcome Word).Ends (fun _ => True) E
  down : (liftM (Word.add? o (-Word.size)) : Outcome Word).Ends (fun _ => True) E
  front : (liftM (Word.sub? o (Word.ofCount (laneCount - 1))) : Outcome Word).Ends (fun _ => True) E

theorem ends_growRun {step : Word} (room : Nat) (run : List ScalarAccess)
    (hlast : (liftM (add? last.offset step) : Outcome Word).Ends (fun _ => True) E)
    (hcode : ∀ a : ScalarAccess, a.IsOf code →
      (liftM (add? a.offset step) : Outcome Word).Ends (fun _ => True) E) :
    (growRun step room run last code).Ends (fun _ => True) E := by
  fun_induction growRun step room run last code with
  | case1 | case2 | case3 => trivial
  | case4 room run last i code next hnext ih =>
    have hextends : (extendsRun run last next step).Ends (fun _ => True) E := by
      unfold extendsRun
      split
      · trivial
      refine .bind hlast fun sum _ => ?_
      split
      · trivial
      split <;> trivial
    refine .bind hextends fun extended _ => ?_
    split
    · exact ih (hcode next ⟨i, mem_cons_self, hnext⟩)
        fun a ha => hcode a (ha.mono (subset_cons_self i code))
    · trivial

theorem ends_findRun? (hcode : ∀ a : ScalarAccess, a.IsOf code → RunSteps E a.offset) :
    (findRun? code).Ends (fun _ => True) E := by
  unfold findRun?
  split
  · trivial
  next i rest =>
  split
  · trivial
  next first hfirst =>
  split
  · trivial
  have hof := hcode first ⟨i, mem_cons_self, hfirst⟩
  have hrest : ∀ a : ScalarAccess, a.IsOf rest → RunSteps E a.offset :=
    fun a ha => hcode a (ha.mono (subset_cons_self i rest))
  refine .bind (ends_growRun _ _ hof.up fun a ha => (hrest a ha).up) fun up _ => ?_
  split
  · trivial
  refine .bind (ends_growRun _ _ hof.down fun a ha => (hrest a ha).down) fun down _ => ?_
  split <;> trivial

theorem ends_vectorize (hcode : ∀ a : ScalarAccess, a.IsOf code → RunSteps E a.offset) :
    (vectorize code).Ends (fun _ => True) E := by
  fun_induction vectorize code with
  | case1 => trivial
  | case2 i rest ihrun ih =>
    have hpart : ∀ {part : Code}, part ⊆ i :: rest → ∀ a : ScalarAccess, a.IsOf part →
        RunSteps E a.offset := fun hpart a ha => hcode a (ha.mono hpart)
    have hkept : (vectorize rest).Ends (fun _ => True) E := ih (hpart (subset_cons_self i rest))
    refine .bind_eq (ends_findRun? hcode) fun run? hrun => ?_
    split
    · next run =>
      split
      · next first later haccesses =>
        have hfirst : RunSteps E first.offset :=
          hcode first (isOf_of_findRun? hrun first (by rw [haccesses]; exact mem_cons_self))
        have hvector : (run.vector first).Ends (fun _ => True) E := by
          unfold Run.vector
          dsimp only
          split
          · exact .bind hfirst.front fun _ _ => trivial
          · exact trivial
        exact .bind hvector fun _ _ => .bind (ihrun later
          (hpart fun j hj => mem_cons_of_mem i (mem_of_mem_drop hj))) fun _ _ => trivial
      · exact .bind hkept fun _ _ => trivial
    · exact .bind hkept fun _ _ => trivial

theorem ends_alignVectors (hcode : ∀ i ∈ code, i.IsPlain)
    (hadd : ∀ i ∈ code, i.op = .vlw ∨ i.op = .vsw → ∀ o, .imm o ∈ i.operands → ∀ n < 4,
      (liftM (add? o (ofCount n)) : Outcome Word).Ends (fun _ => True) E) :
    (alignVectors code).Ends (fun _ => True) E := by
  have hlanes : ∀ i ∈ code, i.alignLanes.Ends (fun _ => True) E := by
    intro i hi
    unfold Instr.alignLanes
    split
    · trivial
    next hop =>
    have hop' : i.op = .vlw ∨ i.op = .vsw := by tauto
    obtain ⟨b, p, q, r, s, o, m, he, hm⟩ := (hcode i hi).eq_vector hop'
    have hadd' := hadd i hi hop' o (by rw [he]; simp [vector])
    rw [he]
    dsimp only [vector]
    split
    · trivial
    next hmask =>
    have hlt := idleLanes_lt hm fun hz => hmask (.inl hz)
    rw [if_neg (show ¬laneCount < idleLanes m from Nat.not_lt.mpr (Nat.le_of_lt hlt))]
    exact .bind (hadd' _ hlt) fun _ _ => trivial
  cases h : alignVectors code with
  | ok out => trivial
  | error e =>
    obtain ⟨i, hi, he⟩ := exists_of_mapM_eq_error h
    have := hlanes i hi
    rw [he] at this
    exact this

theorem overflowsOnly_vectorize (code : Code) : (vectorize code).OverflowsOnly := by
  rw [overflowsOnly_iff]
  exact ends_vectorize fun a _ => ⟨overflowsOnly_iff.mp (.add? _ _),
    overflowsOnly_iff.mp (.add? _ _), overflowsOnly_iff.mp (.sub? _ _)⟩

theorem overflowsOnly_alignVectors (hcode : ∀ i ∈ code, i.IsTidy) :
    (alignVectors code).OverflowsOnly := by
  rw [overflowsOnly_iff]
  exact ends_alignVectors (fun i hi => (hcode i hi).isPlain) fun _ _ _ o _ n _ =>
    overflowsOnly_iff.mp (.add? o (ofCount n))

end Failures

end ClosureCodegen
