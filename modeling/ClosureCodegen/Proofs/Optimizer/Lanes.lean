import Mathlib.Data.List.Nodup
import ClosureCodegen.Optimizer.Vector
import ClosureCodegen.Proofs.Optimizer.Tidy
import ClosureCodegen.Proofs.Outcome

/-!
# The lanes of vector accesses

A vector access does one access for each lane that its mask names, and the *active lanes* list them:
an address and a register for each.  A lane that the mask leaves out has no effect.  Aligning a vector access moves its lanes and changes neither the addresses nor the registers of the
active ones.
-/

namespace ClosureCodegen
open List

/-! ## Lanes -/

def activeLanes (mask : BitVec 8) (address : Nat → Word) (lanes : List Reg) : List (Word × Reg) :=
  (lanes.zipIdx.filter fun (_, k) => mask.getLsbD k).map fun (r, k) => (address k, r)

section ActiveLanes

variable {mask : BitVec 8} {address : Nat → Word} {lanes : List Reg}

theorem activeLanes_append (mask : BitVec 8) (address : Nat → Word) (xs ys : List Reg) :
    activeLanes mask address (xs ++ ys) = activeLanes mask address xs ++
      activeLanes (mask >>> xs.length) (fun k => address (xs.length + k)) ys := by
  have hys : ys.zipIdx (0 + xs.length) = ys.zipIdx.map (Prod.map id (· + xs.length)) := by
    rw [map_snd_add_zipIdx_eq_zipIdx, Nat.add_comm]
  rw [activeLanes, zipIdx_append, filter_append, map_append, hys, filter_map,
    map_map, activeLanes, activeLanes]
  congr 1
  simp only [Function.comp_def, Prod.map_snd, Prod.map_fst, id_eq, BitVec.getLsbD_ushiftRight,
    Nat.add_comm]

theorem activeLanes_eq_nil (h : ∀ k < lanes.length, mask.getLsbD k = false) :
    activeLanes mask address lanes = [] := by
  rw [activeLanes, map_eq_nil_iff, filter_eq_nil_iff]
  rintro ⟨r, k⟩ hk
  exact Bool.eq_false_iff.mp (h k (snd_lt_of_mem_zipIdx hk))

theorem activeLanes_eq_map (h : ∀ k < lanes.length, mask.getLsbD k = true) :
    activeLanes mask address lanes = lanes.zipIdx.map fun (r, k) => (address k, r) := by
  rw [activeLanes, filter_eq_self.mpr]
  rintro ⟨r, k⟩ hk
  exact h k (snd_lt_of_mem_zipIdx hk)

end ActiveLanes

namespace Hart

/-- Loads registers, each from its address. -/
def loadLanes (h : Hart) (lanes : List (Word × Reg)) : Hart :=
  lanes.foldl (fun g (a, r) => g.set r (h.memory a)) h

/-- Stores registers, each to its address. -/
def storeLanes (h : Hart) (lanes : List (Word × Reg)) : Hart :=
  lanes.foldl (fun g (a, r) => g.write a (h.get r)) h

theorem foldl_write (f : Reg → Word) (lanes : List (Word × Reg)) (g : Hart) :
    lanes.foldl (fun g (a, r) => g.write a (f r)) g =
      { g with
        memory := List.foldl (fun m (a, v) => fun b => if b = a then v else m b) g.memory
          (lanes.map fun (a, r) => (a, f r)) } := by
  induction lanes generalizing g with
  | nil => rfl
  | cons lane lanes ih =>
    rw [foldl_cons, ih]
    rfl

theorem loadLanes_perm {h : Hart} {lanes lanes' : List (Word × Reg)} (hp : lanes.Perm lanes')
    (hn : (lanes.map fun l => l.2.name).Nodup) : h.loadLanes lanes = h.loadLanes lanes' := by
  refine hp.foldl_eq' (fun x hx y hy g => ?_) h
  by_cases he : x.2.name = y.2.name
  · rw [inj_on_of_nodup_map hn hx hy he]
  · exact set_comm he

theorem write_comm {h : Hart} {a b v w : Word} (hn : a ≠ b) :
    (h.write a v).write b w = (h.write b w).write a v := by
  unfold write
  congr 1
  funext c
  dsimp only
  split
  · next hc => rw [if_neg (by rw [hc]; exact hn.symm)]
  · rfl

theorem storeLanes_perm {h : Hart} {lanes lanes' : List (Word × Reg)} (hp : lanes.Perm lanes')
    (hn : (lanes.map Prod.fst).Nodup) : h.storeLanes lanes = h.storeLanes lanes' := by
  refine hp.foldl_eq' (fun x hx y hy g => ?_) h
  by_cases he : x.1 = y.1
  · rw [inj_on_of_nodup_map hn hx hy he]
  · exact write_comm he

theorem set_lane {g : Hart} {r : Reg} {active : Bool} {v : Word} :
    g.set (if active then r else zeroReg) (if active then v else 0) =
      if active then g.set r v else g := by
  cases active <;> rfl

end Hart

namespace Instr

variable {env : Environment} {h : Hart} {b p q r s : Reg} {o : Word} {k : BitVec 8}

def vector (op : Opcode) (b p q r s : Reg) (o : Word) (k : BitVec 8) : Instr :=
  ⟨op, [.reg b, .reg p, .reg q, .reg r, .reg s, .imm o, .mask k]⟩

theorem effect_vlw : (vector .vlw b p q r s o k).effect env h =
    h.loadLanes (activeLanes k (laneAddress (h.get b) o) [p, q, r, s]) := by
  have hrun : (vector .vlw b p q r s o k).effect env h =
      h.setAll (maskedLanes k [p, q, r, s]) ((List.range 4).map fun lane =>
        if k.getLsbD lane then h.memory (laneAddress (h.get b) o lane) else 0) := rfl
  rw [hrun]
  simp only [maskedLanes, range_succ_eq_map, range_zero, map_cons, map_nil,
    Hart.setAll_cons, Hart.setAll_nil, Hart.set_lane, Hart.loadLanes, activeLanes, zipIdx_cons,
    zipIdx_nil, filter_cons, filter_nil, Nat.zero_add, Nat.reduceAdd]
  cases k.getLsbD 0 <;> cases k.getLsbD 1 <;> cases k.getLsbD 2 <;> cases k.getLsbD 3 <;> rfl

theorem effect_vsw : (vector .vsw b p q r s o k).effect env h =
    h.storeLanes (activeLanes k (laneAddress (h.get b) o) [p, q, r, s]) := by
  have hrun : (vector .vsw b p q r s o k).effect env h =
      { h with
        memory := List.foldl (fun m cell => fun b => if b = cell.1 then cell.2 else m b) h.memory
          ((([p, q, r, s].map h.get).zipIdx.filter fun lane => k.getLsbD lane.2).map
            fun lane => (laneAddress (h.get b) o lane.2, lane.1)) } := rfl
  rw [hrun, Hart.storeLanes, Hart.foldl_write]
  simp only [activeLanes, map_cons, map_nil, zipIdx_cons, zipIdx_nil,
    filter_cons, filter_nil, Nat.zero_add, Nat.reduceAdd]
  cases k.getLsbD 0 <;> cases k.getLsbD 1 <;> cases k.getLsbD 2 <;> cases k.getLsbD 3 <;> rfl

theorem isTidy_vector {op : Opcode} (hop : op = .vlw ∨ op = .vsw)
    (hsp : ∀ l ∈ [p, q, r, s], l.names .stackPointer = false) (hk : k.toNat < 16) :
    (vector op b p q r s o k).IsTidy := by
  have hlanes : ∀ m, .mask m ∈ (vector op b p q r s o k).operands → m.toNat < 16 := by
    intro m hm
    obtain rfl : m = k := by simpa [vector] using hm
    exact hk
  rcases hop with rfl | rfl
  · exact ⟨rfl, by rintro ⟨⟩, rfl, fun d _ _ => .inl rfl, .inr hsp, hlanes⟩
  · exact ⟨rfl, by rintro ⟨⟩, rfl, forall_mem_nil _, .inr hsp, hlanes⟩

theorem IsTidy.eq_vector {i : Instr} (hi : i.IsTidy) (hop : i.op = .vlw ∨ i.op = .vsw) :
    ∃ b p q r s o k, i = vector i.op b p q r s o k ∧
      (∀ l ∈ [p, q, r, s], l.names .stackPointer = false) ∧ k.toNat < 16 := by
  have hfit := fits_of_decodes hi.decodes
  have hother := hi.stack.resolve_left (by
    rw [stackAdjustment?, if_neg]
    · nofun
    · rcases hop with hop | hop <;> simp [hop])
  rcases hop with hop | hop
  all_goals
    rw [hop] at hfit
    obtain ⟨b, p, q, r, s, o, k, ho⟩ := hfit
    simp only [otherRegs, hop, Opcode.addressing?, regs, ho] at hother
    exact ⟨b, p, q, r, s, o, k, by rw [vector, ← ho], hother, hi.lanes k (by simp [ho])⟩

/-! ## Accesses -/

section Accesses

variable {i : Instr} {h' : Hart}

/-- Makes an access. A lane that the mask leaves out does nothing, whatever register it names. -/
def access? (i : Instr) (h : Hart) : Option Hart :=
  match i.op.family, i.operands with
  | .load, [.reg d, .reg b, .imm o] => some (h.set d (h.memory (h.get b + o)))
  | .store, [.reg b, .reg s, .imm o] => some (h.write (h.get b + o) (h.get s))
  | .vectorLoad, [.reg b, .reg p, .reg q, .reg r, .reg s, .imm o, .mask k] =>
    some (h.loadLanes (activeLanes k (laneAddress (h.get b) o) [p, q, r, s]))
  | .vectorStore, [.reg b, .reg p, .reg q, .reg r, .reg s, .imm o, .mask k] =>
    some (h.storeLanes (activeLanes k (laneAddress (h.get b) o) [p, q, r, s]))
  | _, _ => none

theorem effect_of_access? (ha : i.access? h = some h') : i.effect env h = h' := by
  obtain ⟨op, os⟩ := i
  simp only [access?] at ha
  split at ha
  · next hf =>
    cases ha
    exact effect_load hf _ _ _
  · next hf =>
    cases ha
    exact effect_store hf _ _ _
  · next hf =>
    cases ha
    obtain rfl : op = .vlw := by cases op <;> first | rfl | cases hf
    exact effect_vlw
  · next hf =>
    cases ha
    obtain rfl : op = .vsw := by cases op <;> first | rfl | cases hf
    exact effect_vsw
  · cases ha

theorem isStraight_of_access? (ha : i.access? h = some h') : i.IsStraight := by
  obtain ⟨op, os⟩ := i
  have hop : op.family.isStraight = true ∧ (⟨op, os⟩ : Instr).isLabel = false := by
    cases op <;> first | exact ⟨rfl, rfl⟩ | cases ha
  refine ⟨?_, hop.1, hop.2⟩
  simp only [access?] at ha
  split at ha
  case h_5 => cases ha
  all_goals
    rename_i hf
    simp only [decode?, hf, Option.isSome_some]

end Accesses

end Instr

/-! ## Alignment -/

section Alignment

variable {mask : BitVec 8}

theorem forall_mask {P : BitVec 8 → Prop} (h : ∀ n < 16, P (BitVec.ofNat 8 n))
    (hk : mask.toNat < 16) : P mask := by
  have := h mask.toNat hk
  rwa [BitVec.ofNat_toNat, BitVec.setWidth_eq] at this

theorem idleLanes_lt (hk : mask.toNat < 16) : mask ≠ 0 → idleLanes mask < 4 :=
  forall_mask (P := fun mask => mask ≠ 0 → idleLanes mask < 4) (by decide) hk

theorem getLsbD_of_lt_idleLanes (hk : mask.toNat < 16) :
    ∀ j < idleLanes mask, mask.getLsbD j = false :=
  forall_mask (P := fun mask => ∀ j < idleLanes mask, mask.getLsbD j = false) (by decide) hk

theorem laneAddress_add (a o : Word) (d k : Nat) :
    laneAddress a (o + Word.ofCount d) k = laneAddress a o (d + k) := by
  have hcount : Word.ofCount (d + k) = Word.ofCount d + Word.ofCount k := by
    simp only [Word.ofCount, BitVec.ofNat_add, BitVec.mul_add]
  rw [laneAddress, laneAddress, hcount, ← BitVec.add_assoc, ← BitVec.add_assoc]

theorem activeLanes_align {lanes : List Reg} (hz : mask ≠ 0) (hk : mask.toNat < 16)
    (hl : lanes.length = 4) (a o : Word) :
    activeLanes (mask >>> idleLanes mask) (laneAddress a (o + Word.ofCount (idleLanes mask)))
      (lanes.drop (idleLanes mask) ++ List.replicate (idleLanes mask) zeroReg) =
        activeLanes mask (laneAddress a o) lanes := by
  have hd := idleLanes_lt hk hz
  have htake : (lanes.take (idleLanes mask)).length = idleLanes mask := by
    rw [length_take]
    omega
  have hfront : activeLanes mask (laneAddress a o) (lanes.take (idleLanes mask)) = [] :=
    activeLanes_eq_nil fun k hk' => getLsbD_of_lt_idleLanes hk k (by omega)
  have hback : activeLanes (mask >>> idleLanes mask >>> (lanes.drop (idleLanes mask)).length)
      (fun k => laneAddress a (o + Word.ofCount (idleLanes mask))
        ((lanes.drop (idleLanes mask)).length + k))
      (List.replicate (idleLanes mask) zeroReg) = [] := by
    refine activeLanes_eq_nil fun k _ => ?_
    rw [BitVec.getLsbD_ushiftRight, BitVec.getLsbD_ushiftRight, length_drop]
    refine Nat.testBit_lt_two_pow (Nat.lt_of_lt_of_le hk ?_)
    exact Nat.pow_le_pow_right (show 0 < 2 by decide) (show 4 ≤ _ by omega)
  have haddress : laneAddress a (o + Word.ofCount (idleLanes mask)) =
      fun k => laneAddress a o (idleLanes mask + k) := funext (laneAddress_add a o _)
  conv_rhs => rw [← take_append_drop (idleLanes mask) lanes]
  rw [activeLanes_append, activeLanes_append, hfront, hback, htake, append_nil, nil_append,
    haddress]

end Alignment

end ClosureCodegen
