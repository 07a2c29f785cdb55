import Miyabi.Base.Memory

namespace Miyabi.Base.Record

open Miyabi.Base Miyabi.Base.Memory

variable {w : Nat}

-- A member of a packed structure, with what is assigned to it.
structure Field where
  offset : Nat
  width : Nat
  value : BitVec (8 * width)

def Field.Before (f g : Field) : Prop := f.offset + f.width ≤ g.offset

def Field.Beside (f g : Field) : Prop := f.Before g ∨ g.Before f

instance (f g : Field) : Decidable (f.Beside g) :=
  inferInstanceAs (Decidable (_ + _ ≤ _ ∨ _ + _ ≤ _))

-- What a member holds.
def member (m : Memory w) (base : BitVec w) (offset width : Nat) : BitVec (8 * width) :=
  load m (base + BitVec.ofNat w offset) width

-- The assignments, the first of the list first.
def assign (base : BitVec w) (fields : List Field) (m : Memory w) : Memory w :=
  fields.foldl (fun m f => store m (base + BitVec.ofNat w f.offset) f.value) m

variable {base : BitVec w} {fields : List Field} {m : Memory w} {n : Nat}

theorem member_congr {m' : Memory w} {o k : Nat} (hk : o + k ≤ n)
    (h : Agree m m' base n) : member m' base o k = member m base o k := by
  refine load_congr (h.inner ?_)
  rw [BitVec.toNat_ofNat]
  exact (Nat.add_le_add_right (Nat.mod_le _ _) k).trans hk

-- They change the structure alone.
theorem assign_keeps (hn : n < 2 ^ w) (h : ∀ f ∈ fields, f.offset + f.width ≤ n) :
    KeepsOutside m (assign base fields m) base n := by
  induction fields generalizing m with
  | nil => exact fun _ _ => rfl
  | cons f fs ih =>
      obtain ⟨hf, hfs⟩ := List.forall_mem_cons.mp h
      refine KeepsOutside.trans (fun x hx => ?_) (ih hfs)
      refine store_of_not_inRange m _ x f.value fun hin => hx (inRange_inner base _ x ?_ hin)
      rw [BitVec.toNat_ofNat, Nat.mod_eq_of_lt (by omega)]
      exact hf

-- A member that is not assigned to.
theorem member_assign_beside {o k : Nat} (hn : n ≤ 2 ^ w) (hk : o + k ≤ n)
    (h : ∀ f ∈ fields, f.offset + f.width ≤ n)
    (hbeside : ∀ f ∈ fields, o + k ≤ f.offset ∨ f.offset + f.width ≤ o) :
    member (assign base fields m) base o k = member m base o k := by
  induction fields generalizing m with
  | nil => rfl
  | cons f fs ih =>
      obtain ⟨hf, hfs⟩ := List.forall_mem_cons.mp h
      obtain ⟨hb, hbs⟩ := List.forall_mem_cons.mp hbeside
      refine (ih hfs hbs).trans (load_store_apart m _ _ f.value ?_)
      rcases hb with hb | hb
      · exact apart_offsets base hb (hf.trans hn)
      · exact (apart_offsets base hb (hk.trans hn)).symm

-- Each member is what has been assigned to it.
theorem member_assign (hn : n ≤ 2 ^ w) (h : ∀ f ∈ fields, f.offset + f.width ≤ n)
    (hbeside : fields.Pairwise Field.Beside) {f : Field} (hf : f ∈ fields) :
    member (assign base fields m) base f.offset f.width = f.value := by
  induction fields generalizing m with
  | nil => cases hf
  | cons g gs ih =>
      obtain ⟨hg, hgs⟩ := List.forall_mem_cons.mp h
      obtain ⟨hgb, hgsb⟩ := List.pairwise_cons.mp hbeside
      rcases List.mem_cons.mp hf with rfl | hf
      · have hlater : member (assign base gs (store m (base + BitVec.ofNat w f.offset) f.value)) base
            f.offset f.width = member (store m (base + BitVec.ofNat w f.offset) f.value) base f.offset
              f.width := member_assign_beside hn hg hgs fun g hg => hgb g hg
        exact hlater.trans (load_store_same m _ f.value (by omega))
      · exact ih hgs hgsb hf

end Miyabi.Base.Record
