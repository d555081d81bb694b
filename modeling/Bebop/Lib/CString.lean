import Mathlib.Data.List.TakeDrop

/-!
# NUL-terminated strings

`CString` is a string of bytes none of which is zero. In a buffer, a string stands at a place
if its bytes do and a zero behind them (`TextAt`). The operations that write (`store`,
`memmove`) fail outside the buffer and leave what is behind the written bytes as it was.
-/

namespace Bytes

structure CString where
  bytes : List UInt8
  terminated : 0 ∉ bytes

/-! ## Reads and writes -/

variable (buf : List UInt8)

/-- `*p` -/
def charAt (p : Nat) : UInt8 := buf.getD p 0

/-- `strlen` -/
def strlen (p : Nat) : Nat := ((buf.drop p).takeWhile (· ≠ 0)).length

def cstr : List UInt8 := buf.takeWhile (· ≠ 0)

/-- `*p = v` -/
def store (p : Nat) (v : UInt8) : Option (List UInt8) :=
  if p < buf.length then some (buf.set p v) else none

/-- `memmove` inside a buffer. -/
def memmove (dst src len : Nat) : Option (List UInt8) :=
  if dst + len ≤ buf.length ∧ src + len ≤ buf.length then
    some (buf.take dst ++ (buf.drop src).take len ++ buf.drop (dst + len))
  else none

/-! ## Strings in a buffer -/

/-- The bytes of `c` and a zero behind them. -/
def TextAt (i : Nat) (c : List UInt8) : Prop :=
  0 ∉ c ∧ ∃ back, buf.drop i = c ++ 0 :: back

theorem takeWhile_ne_zero {c : List UInt8} (h : 0 ∉ c) (back : List UInt8) :
    (c ++ 0 :: back).takeWhile (· ≠ 0) = c := by
  have hc : ∀ a ∈ c, decide (a ≠ 0) = true := by
    intro a ha
    exact decide_eq_true fun h0 => h (h0 ▸ ha)
  rw [List.takeWhile_append_of_pos hc]
  simp

theorem cstr_of_eq {buf c back : List UInt8} (h : 0 ∉ c) (hbuf : buf = c ++ 0 :: back) :
    cstr buf = c := by
  rw [cstr, hbuf, takeWhile_ne_zero h]

theorem cstr_of_terminated {buf : List UInt8} (h : 0 ∉ buf) : cstr buf = buf := by
  have hall : ∀ a ∈ buf, decide (a ≠ 0) = true := fun a ha => decide_eq_true fun hzero => h (hzero ▸ ha)
  have happend : (buf ++ []).takeWhile (· ≠ 0) = buf ++ [].takeWhile (· ≠ 0) := List.takeWhile_append_of_pos hall
  rw [List.takeWhile_nil, List.append_nil] at happend
  exact happend

theorem TextAt.strlen {buf c : List UInt8} {i : Nat} (h : TextAt buf i c) :
    strlen buf i = c.length := by
  obtain ⟨hzero, back, hback⟩ := h
  rw [Bytes.strlen, hback, takeWhile_ne_zero hzero]

theorem TextAt.lt_length {buf c : List UInt8} {i : Nat} (h : TextAt buf i c) :
    i + c.length < buf.length := by
  obtain ⟨-, back, hback⟩ := h
  have hlen := congrArg List.length hback
  simp only [List.length_drop, List.length_append, List.length_cons] at hlen
  omega

theorem TextAt.take {buf c : List UInt8} {i : Nat} (h : TextAt buf i c) :
    (buf.drop i).take c.length = c := by
  obtain ⟨-, back, hback⟩ := h
  rw [hback, List.take_left']
  rfl

theorem charAt_of_drop {buf a b : List UInt8} {p : Nat} (h : buf.drop p = a ++ b) :
    charAt buf (p + a.length) = b.headD 0 := by
  have hget : buf[p + a.length]? = b[0]? := by
    rw [← List.getElem?_drop, h, List.getElem?_append_right (Nat.le_refl _), Nat.sub_self]
  unfold charAt
  rw [List.getD_eq_getElem?_getD, hget]
  cases b <;> rfl

theorem charAt_eq (p : Nat) : charAt buf p = (buf.drop p).headD 0 :=
  charAt_of_drop (a := []) rfl

theorem drop_of_drop {buf a b : List UInt8} {p : Nat} (h : buf.drop p = a ++ b) :
    buf.drop (p + a.length) = b := by
  rw [← List.drop_drop, h, List.drop_left]

theorem lt_length_of_charAt {buf : List UInt8} {p : Nat} (h : charAt buf p ≠ 0) : p < buf.length := by
  by_contra hp
  rw [charAt, List.getD_eq_getElem?_getD, List.getElem?_eq_none (by omega)] at h
  exact h rfl

theorem drop_eq_of_le {buf buf' : List UInt8} {k n : Nat} (h : buf'.drop k = buf.drop k)
    (hle : k ≤ n) : buf'.drop n = buf.drop n := by
  obtain ⟨d, rfl⟩ := Nat.exists_eq_add_of_le hle
  rw [← List.drop_drop, h, List.drop_drop]

theorem TextAt.set {buf c : List UInt8} {i j : Nat} (h : TextAt buf i c) (hj : i + c.length < j)
    (v : UInt8) : TextAt (buf.set j v) i c := by
  obtain ⟨hzero, back, hback⟩ := h
  obtain ⟨k, hk⟩ : ∃ k, j - i = c.length + (k + 1) := ⟨j - i - c.length - 1, by omega⟩
  refine ⟨hzero, back.set k v, ?_⟩
  rw [List.drop_set, if_neg (by omega), hback, hk, List.set_append_right _ _ (by omega),
    Nat.add_sub_cancel_left, List.set_cons_succ]

theorem TextAt.of_store {buf buf' c back : List UInt8} {i : Nat} {a : UInt8} (hzero : 0 ∉ c)
    (hdrop : buf.drop i = c ++ a :: back) (h : store buf (i + c.length) 0 = some buf') :
    TextAt buf' i c := by
  unfold store at h
  split at h
  · cases h
    refine ⟨hzero, back, ?_⟩
    rw [List.drop_set, if_neg (by omega), hdrop, Nat.add_sub_cancel_left,
      List.set_append_right _ _ (Nat.le_refl _), Nat.sub_self]
    rfl
  · cases h

theorem TextAt.of_drop {buf buf' c : List UInt8} {i k : Nat} (h : TextAt buf i c) (hk : k ≤ i)
    (hdrop : buf'.drop k = buf.drop k) : TextAt buf' i c := by
  obtain ⟨hzero, back, hback⟩ := h
  refine ⟨hzero, back, ?_⟩
  rw [drop_eq_of_le hdrop hk, hback]

/-! ## What the writes do -/

theorem store_length {buf buf' : List UInt8} {p : Nat} {v : UInt8} (h : store buf p v = some buf') :
    buf'.length = buf.length := by
  unfold store at h
  split at h
  · cases h
    exact List.length_set
  · cases h

theorem store_eq {buf : List UInt8} {p : Nat} (hp : p < buf.length) (v : UInt8) :
    ∃ buf', store buf p v = some buf' ∧ buf'.length = buf.length ∧
      buf'.take (p + 1) = buf.take p ++ [v] ∧ buf'.drop (p + 1) = buf.drop (p + 1) := by
  refine ⟨buf.set p v, if_pos hp, List.length_set, ?_, ?_⟩
  · rw [List.take_add_one, List.take_set_of_le (Nat.le_refl p), List.getElem?_set_self hp]
    rfl
  · exact List.drop_set_of_lt (Nat.lt_succ_self p)

theorem store_terminator {buf text : List UInt8} {p : Nat} (hp : p < buf.length)
    (htext : buf.take p = text) :
    ∃ buf' back, store buf p 0 = some buf' ∧ buf' = text ++ 0 :: back ∧
      ∀ k, p < k → buf'.drop k = buf.drop k := by
  obtain ⟨buf', hstore, -, htake, hdrop⟩ := store_eq hp 0
  refine ⟨buf', buf.drop (p + 1), hstore, ?_, ?_⟩
  · have hsplit := List.take_append_drop (p + 1) buf'
    rw [htake, hdrop, htext, List.append_assoc] at hsplit
    exact hsplit.symm
  · intro k hk
    exact drop_eq_of_le hdrop hk

theorem memmove_eq {buf c : List UInt8} {dst src : Nat} (hsrc : TextAt buf src c) (hdst : dst ≤ src) :
    ∃ buf', memmove buf dst src c.length = some buf' ∧ buf'.length = buf.length ∧
      buf'.take (dst + c.length) = buf.take dst ++ c ∧
      buf'.drop (dst + c.length) = buf.drop (dst + c.length) := by
  have hlen := hsrc.lt_length
  have hfront : (buf.take dst ++ c).length = dst + c.length := by
    rw [List.length_append, List.length_take, Nat.min_eq_left (by omega)]
  refine ⟨_, if_pos ⟨by omega, by omega⟩, ?_, ?_, ?_⟩
  · rw [hsrc.take, List.length_append, hfront, List.length_drop]
    omega
  · rw [hsrc.take, List.take_left' hfront]
  · rw [hsrc.take, List.drop_left' hfront]

end Bytes
