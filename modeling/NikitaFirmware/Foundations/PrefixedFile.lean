import Mathlib.Data.List.Basic

/-!
# Files with their length in front

A file is a payload after two bytes of its length, big endian. An update stores bytes anywhere in
it: the payload gets the length that is written, but it always reaches to the end of what is
written of it.
-/

namespace Foundations.PrefixedFile

open List
def beBytes (n : Nat) : List UInt8 := [UInt8.ofNat (n / 256), UInt8.ofNat n]

def beNat (bs : List UInt8) : Nat := bs.foldl (fun n b => n * 256 + b.toNat) 0

def image (p : List UInt8) : List UInt8 := beBytes p.length ++ p

/-- The length that an update writes: what it does not write of it stays. -/
def writtenLength (p : List UInt8) (o : Nat) (d : List UInt8) : Nat :=
  if o < 2 then
    beNat ((beBytes p.length).take o ++ d.take (2 - o) ++ (beBytes p.length).drop (o + d.length))
  else p.length

def newLength (p : List UInt8) (o : Nat) (d : List UInt8) : Nat :=
  max (writtenLength p o d) (o + d.length - 2)

structure Updates (p : List UInt8) (o : Nat) (d p' : List UInt8) : Prop where
  length : p'.length = newLength p o d
  stored : ((image p').drop o).take d.length = d
  kept : ∀ i, i < p'.length → i + 2 < o ∨ o + d.length ≤ i + 2 → p'[i]? = some (p.getD i 0)

/-- The payload is brought to the new length, then what is written of it is stored. -/
def resize (n : Nat) (p : List UInt8) : List UInt8 := p.take n ++ replicate (n - p.length) 0

def write (p : List UInt8) (o : Nat) (d : List UInt8) : List UInt8 :=
  let q := resize (newLength p o d) p
  q.take (o - 2) ++ d.drop (2 - o) ++ q.drop (o - 2 + (d.drop (2 - o)).length)

variable {p p' d : List UInt8} {o n i : Nat}

theorem beNat_pair (a b : UInt8) : beNat [a, b] = a.toNat * 256 + b.toNat := by
  rw [beNat, foldl_cons, foldl_cons, foldl_nil]
  omega

theorem beBytes_beNat (a b : UInt8) : beBytes (beNat [a, b]) = [a, b] := by
  have ha := a.toNat_lt
  have hb := b.toNat_lt
  rw [beNat_pair, beBytes]
  congr 1
  · rw [show (a.toNat * 256 + b.toNat) / 256 = a.toNat by omega, UInt8.ofNat_toNat]
  · congr 1
    apply UInt8.toNat_inj.mp
    rw [UInt8.toNat_ofNat']
    omega

theorem writtenLength_both (a b : UInt8) (d : List UInt8) :
    writtenLength p 0 (a :: b :: d) = beNat [a, b] := by
  have hnil : (beBytes p.length).drop (0 + (a :: b :: d).length) = [] :=
    drop_eq_nil_of_le (by change 2 ≤ 0 + (d.length + 2); omega)
  rw [writtenLength, if_pos (by omega), hnil]
  rfl

theorem writtenLength_high (a : UInt8) :
    writtenLength p 0 [a] = beNat [a, UInt8.ofNat p.length] := rfl

theorem writtenLength_low (a : UInt8) (d : List UInt8) :
    writtenLength p 1 (a :: d) = beNat [UInt8.ofNat (p.length / 256), a] := by
  have hnil : (beBytes p.length).drop (1 + (a :: d).length) = [] :=
    drop_eq_nil_of_le (by change 2 ≤ 1 + (d.length + 1); omega)
  rw [writtenLength, if_pos (by omega), hnil]
  rfl

theorem length_image : (image p).length = p.length + 2 := by
  rw [image, length_append]
  exact Nat.add_comm 2 _

theorem length_resize : (resize n p).length = n := by
  rw [resize, length_append, length_take, length_replicate]
  omega

theorem getElem?_resize (h : i < n) : (resize n p)[i]? = some (p.getD i 0) := by
  rcases Nat.lt_or_ge i p.length with hlt | hge
  · rw [resize, getElem?_append_left (by rw [length_take]; omega),
      getElem?_take_of_lt h, getD_eq_getElem?_getD, getElem?_eq_getElem hlt]
    rfl
  · rw [resize, getElem?_append_right (by rw [length_take]; omega), length_take,
      getElem?_replicate, if_pos (by omega), getD_eq_getElem?_getD,
      getElem?_eq_none hge]
    rfl

theorem end_le_newLength (p : List UInt8) (o : Nat) (d : List UInt8) :
    o - 2 + (d.drop (2 - o)).length ≤ newLength p o d := by
  rw [length_drop, newLength]
  omega

theorem length_head (p : List UInt8) (o : Nat) (d : List UInt8) :
    ((resize (newLength p o d) p).take (o - 2)).length = o - 2 := by
  have hend := end_le_newLength p o d
  rw [length_take, length_resize]
  omega

theorem length_write : (write p o d).length = newLength p o d := by
  have hend := end_le_newLength p o d
  have hlen := length_resize (n := newLength p o d) (p := p)
  rw [write, length_append, length_append, length_head,
    length_drop (l := resize (newLength p o d) p), hlen]
  omega

theorem kept_write (hi : i < newLength p o d) (hout : i + 2 < o ∨ o + d.length ≤ i + 2) :
    (write p o d)[i]? = some (p.getD i 0) := by
  have hend := end_le_newLength p o d
  have htake := length_head p o d
  rw [write, append_assoc]
  rcases hout with h | h
  · rw [getElem?_append_left (by omega), getElem?_take_of_lt (by omega),
      getElem?_resize hi]
  · have hdrop : (d.drop (2 - o)).length = d.length - (2 - o) := length_drop ..
    rw [getElem?_append_right (by omega), htake, getElem?_append_right (by omega),
      getElem?_drop]
    have hsub : o - 2 + (d.drop (2 - o)).length + (i - (o - 2) - (d.drop (2 - o)).length) = i := by
      omega
    rw [hsub, getElem?_resize hi]

theorem stored_payload (p : List UInt8) (o : Nat) (d : List UInt8) :
    ((write p o d).drop (o - 2)).take (d.drop (2 - o)).length = d.drop (2 - o) := by
  have htake := length_head p o d
  have hdrop : ((resize (newLength p o d) p).take (o - 2)).drop (o - 2) = [] :=
    drop_eq_nil_of_le (Nat.le_of_eq htake)
  rw [write, append_assoc, drop_append, htake, Nat.sub_self, drop_zero, hdrop,
    nil_append, take_left]

theorem stored_header (hd : d ≠ []) (ho : o < 2) (hle : o + d.length - 2 ≤ writtenLength p o d) :
    ((beBytes (newLength p o d)).drop o).take d.length = d.take (2 - o) := by
  rw [newLength, Nat.max_eq_left hle]
  obtain ⟨b, d, rfl⟩ := exists_cons_of_ne_nil hd
  obtain rfl | rfl : o = 0 ∨ o = 1 := by omega
  · cases d with
    | nil =>
      rw [writtenLength_high, beBytes_beNat]
      rfl
    | cons c d =>
      rw [writtenLength_both, beBytes_beNat]
      exact take_of_length_le (by simp)
  · rw [writtenLength_low, beBytes_beNat]
    exact take_of_length_le (by simp)

theorem stored_write (hd : d ≠ []) (h : o < 2 → o + d.length - 2 ≤ writtenLength p o d) :
    ((image (write p o d)).drop o).take d.length = d := by
  have hp := stored_payload p o d
  rw [length_drop] at hp
  rw [image, length_write, drop_append]
  change (drop o (beBytes _) ++ drop (o - 2) _).take _ = d
  rcases Nat.lt_or_ge o 2 with ho | ho
  · have hlen : ((beBytes (newLength p o d)).drop o).length = 2 - o := by
      rw [length_drop]
      rfl
    rw [take_append, stored_header hd ho (h ho), hlen, hp, take_append_drop]
  · have hnil : (beBytes (newLength p o d)).drop o = [] := drop_eq_nil_of_le ho
    rw [show 2 - o = 0 by omega, Nat.sub_zero, drop_zero] at hp
    rw [hnil, nil_append, hp]

theorem updates_write (hd : d ≠ []) (h : o < 2 → o + d.length - 2 ≤ writtenLength p o d) :
    Updates p o d (write p o d) where
  length := length_write
  stored := stored_write hd h
  kept := fun _ hi => kept_write (length_write ▸ hi)

theorem resize_length (p : List UInt8) : resize p.length p = p := by
  rw [resize, take_length, Nat.sub_self, replicate_zero, append_nil]

theorem newLength_inside (ho : 2 ≤ o) (hend : o + d.length ≤ 2 + p.length) :
    newLength p o d = p.length := by
  rw [newLength, writtenLength, if_neg (by omega)]
  omega

theorem write_inside (ho : 2 ≤ o) (hend : o + d.length ≤ 2 + p.length) :
    write p o d = p.take (o - 2) ++ d ++ p.drop (o - 2 + d.length) := by
  have hdrop : d.drop (2 - o) = d := by rw [show 2 - o = 0 by omega, drop_zero]
  rw [write, newLength_inside ho hend, resize_length, hdrop]

theorem write_next {m q : List UInt8} {k n : Nat} (hlen : q.length = m.length)
    (hend : k + n ≤ m.length) :
    write (m.take k ++ q.drop k) (k + 2) ((m.drop k).take n) = m.take (k + n) ++ q.drop (k + n) := by
  have htake : (m.take k).length = k := by
    rw [length_take]
    omega
  have hpiece : ((m.drop k).take n).length = n := by
    rw [length_take, length_drop]
    omega
  have hpayload : (m.take k ++ q.drop k).length = m.length := by
    rw [length_append, htake, length_drop]
    omega
  rw [write_inside (Nat.le_add_left 2 k) (by omega), hpiece, Nat.add_sub_cancel,
    take_left' htake, drop_append, htake,
    drop_eq_nil_of_le (Nat.le_trans (Nat.le_of_eq htake) (Nat.le_add_right k n)),
    nil_append, drop_drop, take_add, Nat.add_sub_cancel_left]

theorem newLength_both (a b : UInt8) : newLength p 0 [a, b] = beNat [a, b] := by
  rw [newLength, writtenLength_both]
  exact Nat.max_eq_left (Nat.zero_le _)

theorem newLength_high (a : UInt8) : newLength p 0 [a] = beNat [a, UInt8.ofNat p.length] := by
  rw [newLength, writtenLength_high]
  exact Nat.max_eq_left (Nat.zero_le _)

theorem newLength_low (a : UInt8) : newLength p 1 [a] = beNat [UInt8.ofNat (p.length / 256), a] := by
  rw [newLength, writtenLength_low]
  exact Nat.max_eq_left (Nat.zero_le _)

theorem Updates.eq_write (h : Updates p o d p') : p' = write p o d := by
  have hlen : p'.length = (write p o d).length := h.length.trans length_write.symm
  apply ext_getElem?
  intro i
  rcases Nat.lt_or_ge i p'.length with hi | hi
  swap
  · rw [getElem?_eq_none hi, getElem?_eq_none (hlen ▸ hi)]
  by_cases hout : i + 2 < o ∨ o + d.length ≤ i + 2
  · rw [h.kept i hi hout, kept_write (h.length ▸ hi) hout]
  · -- the byte is in what is written of the payload
    have hbyte : ∀ q : List UInt8, ((image q).drop o).take d.length = d →
        q[i]? = d[i + 2 - o]? := by
      intro q hq
      rw [← hq, getElem?_take_of_lt (by omega), getElem?_drop, image,
        getElem?_append_right (by change 2 ≤ _; omega)]
      congr 1
      change i = o + (i + 2 - o) - 2
      omega
    have hpay := congrArg (fun l => l[i + 2 - o - (2 - o)]?) (stored_payload p o d)
    rw [hbyte p' h.stored]
    rw [getElem?_take_of_lt (by rw [length_drop]; omega), getElem?_drop,
      getElem?_drop] at hpay
    rw [show o - 2 + (i + 2 - o - (2 - o)) = i by omega,
      show 2 - o + (i + 2 - o - (2 - o)) = i + 2 - o by omega] at hpay
    exact hpay.symm

theorem Updates.le_writtenLength (h : Updates p o d p') (hd : d ≠ []) (ho : o < 2)
    (hshort : d.length ≤ 255) : o + d.length - 2 ≤ writtenLength p o d := by
  by_contra hlt
  have hlen : p'.length = o + d.length - 2 := by
    rw [h.length, newLength]
    exact Nat.max_eq_right (by omega)
  have hstored := h.stored
  rw [image, hlen] at hstored
  have hbytes : beBytes (o + d.length - 2) = [0, UInt8.ofNat (o + d.length - 2)] := by
    rw [beBytes, show (o + d.length - 2) / 256 = 0 by omega]
    rfl
  have hlow : (UInt8.ofNat (o + d.length - 2)).toNat = o + d.length - 2 := by
    rw [UInt8.toNat_ofNat']
    omega
  rw [hbytes] at hstored
  generalize hm : o + d.length - 2 = m at *
  obtain ⟨a, d, rfl⟩ := exists_cons_of_ne_nil hd
  obtain rfl | rfl : o = 0 ∨ o = 1 := by omega
  · cases d with
    | nil =>
      rw [length_singleton] at hm
      omega
    | cons b d =>
      obtain ⟨rfl, htail⟩ := cons.inj hstored
      obtain ⟨rfl, -⟩ := cons.inj htail
      rw [writtenLength_both, beNat_pair, hlow] at hlt
      omega
  · obtain ⟨rfl, -⟩ := cons.inj hstored
    rw [writtenLength_low, beNat_pair, hlow] at hlt
    omega

end Foundations.PrefixedFile
