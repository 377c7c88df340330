import Mathlib.Algebra.Group.Nat.Defs
import Marginalia.LineReader
import Marginalia.Proofs.Text.Cut
/-!
What the decoder does at a line feed and with well-formed bytes. A line feed is never part of a
longer character, so it ends whatever stands open before it: lines may be cut before or after they
are decoded.
-/

namespace Marginalia.Utf8
open LineReader (lineFeed)

/-- What every state that bytes lead to has: only a byte above ASCII goes on with an open character,
and the character's value will be above ASCII too, however it goes on. -/
def State.Open : State → Prop
  | .start => True
  | .inside _ low _ more code => 0x80 ≤ low ∧ 0x80 ≤ (code * 64 + (low - 0x80)) * 64 ^ more

theorem open_lead (b : UInt8) : (lead b).1.Open := by
  simp only [lead]
  repeat' split
  all_goals simp only [State.Open]
  all_goals omega

theorem State.Open.step {s : State} (h : s.Open) (b : UInt8) : (step s b).1.Open := by
  cases s with
  | start => exact open_lead b
  | inside seen low high more code =>
    obtain ⟨hlow, hcode⟩ := h
    simp only [Utf8.step]
    split
    · rename_i hb
      cases more with
      | zero => trivial
      | succ more =>
        refine ⟨Nat.le_refl _, ?_⟩
        calc 0x80 ≤ (code * 64 + (low - 0x80)) * 64 ^ (more + 1) := hcode
          _ ≤ (code * 64 + (b.toNat - 0x80)) * 64 ^ (more + 1) :=
              Nat.mul_le_mul_right _ (by omega)
          _ = ((code * 64 + (b.toNat - 0x80)) * 64 + (0x80 - 0x80)) * 64 ^ more := by
              rw [Nat.pow_succ', Nat.sub_self, Nat.add_zero, Nat.mul_assoc]
    · simpa using open_lead b

theorem ofNat_ne_feed {n : Nat} (h : n ≠ 0x0A) : Char.ofNat n ≠ '\n' := by
  intro he
  by_cases hv : n.isValidChar
  · rw [Char.ofNat, dif_pos hv] at he
    exact h (congrArg Char.toNat he)
  · rw [Char.ofNat, dif_neg hv] at he
    exact absurd he (by decide)

theorem feed_not_mem_lead {b : UInt8} (hb : b ≠ lineFeed) : .char '\n' ∉ (lead b).2 := by
  have hn : b.toNat ≠ 0x0A := fun h => hb (UInt8.toNat_inj.mp h)
  have hc := ofNat_ne_feed hn
  simp only [lead]
  repeat' split
  all_goals simp [hc.symm]

theorem State.Open.feed_not_mem_step {s : State} (h : s.Open) {b : UInt8} (hb : b ≠ lineFeed) :
    .char '\n' ∉ (Utf8.step s b).2 := by
  cases s with
  | start => exact feed_not_mem_lead hb
  | inside seen low high more code =>
    obtain ⟨hlow, hcode⟩ := h
    simp only [Utf8.step]
    split
    · rename_i hbound
      cases more with
      | zero =>
        have hc : Char.ofNat (code * 64 + (b.toNat - 0x80)) ≠ '\n' :=
          ofNat_ne_feed (by simp only [Nat.pow_zero] at hcode; omega)
        simp [hc.symm]
      | succ more => simp
    · simpa using feed_not_mem_lead hb

/-- Whatever stands open, a line feed ends it and is read as itself. -/
theorem State.Open.step_feed {s : State} (h : s.Open) :
    Utf8.step s lineFeed = (.start, finish s ++ [.char '\n']) := by
  cases s with
  | start => rfl
  | inside seen low high more code =>
    have hout : ¬ (low ≤ lineFeed.toNat ∧ lineFeed.toNat ≤ high) := by
      have hlow := h.1
      intro hb
      have hfeed : lineFeed.toNat = 0x0A := rfl
      omega
    simp only [Utf8.step, if_neg hout]
    rfl

theorem decodeFrom_append_feed {s : State} (h : s.Open) (before after : Bytes) :
    decodeFrom s (before ++ lineFeed :: after) =
      decodeFrom s before ++ .char '\n' :: decode after := by
  induction before generalizing s with
  | nil => simp [decodeFrom, h.step_feed, decode]
  | cons b before ih => simp [decodeFrom, ih (h.step b)]

theorem feed_not_mem_decodeFrom {s : State} (h : s.Open) {bytes : Bytes} (hb : lineFeed ∉ bytes) :
    .char '\n' ∉ decodeFrom s bytes := by
  induction bytes generalizing s with
  | nil => cases s <;> simp [decodeFrom, finish]
  | cons b rest ih =>
    have hne : b ≠ lineFeed := fun e => hb (by simp [e])
    have hrest : lineFeed ∉ rest := fun hm => hb (by simp [hm])
    simp only [decodeFrom, List.mem_append, not_or]
    exact ⟨h.feed_not_mem_step hne, ih (h.step b) hrest⟩

theorem decodeLossy_append_feed (before after : Bytes) :
    decodeLossy (before ++ lineFeed :: after) =
      decodeLossy before ++ '\n' :: decodeLossy after := by
  simp [decodeLossy, decode, decodeFrom_append_feed (s := .start) trivial, Item.char?]

theorem feed_not_mem_decodeLossy {bytes : Bytes} (h : lineFeed ∉ bytes) :
    '\n' ∉ decodeLossy bytes := by
  intro hm
  obtain ⟨item, hitem, he⟩ := List.mem_map.mp hm
  cases item with
  | char c =>
    have hc : c = '\n' := he
    exact feed_not_mem_decodeFrom (s := .start) trivial h (hc ▸ hitem)
  | broken run =>
    have hc : '\uFFFD' = '\n' := he
    exact absurd hc (by decide)

/-- A step gives an item unless it leaves a character open. -/
theorem step_ne_start_of_nil {s : State} {b : UInt8} (h : (step s b).2 = []) :
    (step s b).1 ≠ .start := by
  have hlead : ∀ b, (lead b).2 = [] → (lead b).1 ≠ .start := by
    intro b
    simp only [lead]
    repeat' split
    all_goals simp
  cases s with
  | start => exact hlead b h
  | inside seen low high more code =>
    simp only [step] at h ⊢
    split at h
    · cases more with
      | zero => simp at h
      | succ more => simp_all
    · simp at h

theorem decodeFrom_eq_nil {s : State} {bytes : Bytes} (h : decodeFrom s bytes = []) :
    s = .start ∧ bytes = [] := by
  induction bytes generalizing s with
  | nil => cases s <;> simp_all [decodeFrom, finish]
  | cons b rest ih =>
    obtain ⟨hstep, hrest⟩ := List.append_eq_nil_iff.mp h
    exact absurd (ih hrest).1 (step_ne_start_of_nil hstep)

/-- No byte is passed over without leaving a character. -/
theorem decodeLossy_eq_nil_iff {bytes : Bytes} : decodeLossy bytes = [] ↔ bytes = [] := by
  constructor
  · intro h
    exact (decodeFrom_eq_nil (List.map_eq_nil_iff.mp h)).2
  · rintro rfl
    rfl

/-- The cut of a text whose bytes are cut so. -/
def decodeCut (c : Cut lineFeed) : Cut '\n' where
  ended := c.ended.map decodeLossy
  rest := decodeLossy c.rest
  ended_free := by
    intro x hx
    obtain ⟨bytes, hbytes, rfl⟩ := List.mem_map.mp hx
    exact feed_not_mem_decodeLossy (c.ended_free bytes hbytes)
  rest_free := feed_not_mem_decodeLossy c.rest_free

theorem join_decodeCut (c : Cut lineFeed) : (decodeCut c).join = decodeLossy c.join := by
  obtain ⟨ended, rest, hended, hrest⟩ := c
  simp only [decodeCut, Cut.join, List.flatMap_map]
  induction ended with
  | nil => rfl
  | cons x ended ih =>
    have htail := ih (fun y hy => hended y (List.mem_cons_of_mem x hy))
    simp only [List.flatMap_cons, List.append_assoc, List.cons_append, List.nil_append] at htail ⊢
    rw [decodeLossy_append_feed, htail]

theorem stretches_decodeCut (c : Cut lineFeed) :
    (decodeCut c).stretches = c.stretches.map decodeLossy := by
  by_cases hr : c.rest = []
  · simp [Cut.stretches, decodeCut, hr, decodeLossy_eq_nil_iff]
  · simp [Cut.stretches, decodeCut, hr, decodeLossy_eq_nil_iff]

theorem decodeFrom_cons (s : State) (b : UInt8) (rest : Bytes) :
    decodeFrom s (b :: rest) = (step s b).2 ++ decodeFrom (step s b).1 rest :=
  rfl

section Inside

variable {seen : Bytes} {low high code n : Nat} {b : UInt8} (hb : b.toNat = 0x80 + n)
  (hlow : low ≤ 0x80 + n) (hhigh : 0x80 + n ≤ high) (rest : Bytes)
include hb hlow hhigh

/-- A byte with the next bits of a character, of which more are to come. -/
theorem decodeFrom_more (more : Nat) :
    decodeFrom (.inside seen low high (more + 1) code) (b :: rest) =
      decodeFrom (.inside (seen ++ [b]) 0x80 0xBF more (code * 64 + n)) rest := by
  have hin : low ≤ b.toNat ∧ b.toNat ≤ high := by omega
  have hn : b.toNat - 0x80 = n := by omega
  rw [decodeFrom_cons, step, if_pos hin, hn, List.nil_append]

/-- A byte with the last bits of a character. -/
theorem decodeFrom_last :
    decodeFrom (.inside seen low high 0 code) (b :: rest) =
      .char (Char.ofNat (code * 64 + n)) :: decode rest := by
  have hin : low ≤ b.toNat ∧ b.toNat ≤ high := by omega
  have hn : b.toNat - 0x80 = n := by omega
  rw [decodeFrom_cons, step, if_pos hin, hn]
  rfl

end Inside

section Lead

variable {b : UInt8} {n : Nat}

theorem lead_one (hb : b.toNat = n) (hn : n < 0x80) :
    lead b = (.start, [.char (Char.ofNat n)]) := by
  simp only [lead, hb, if_pos hn]

theorem lead_two (hb : b.toNat = 0xC0 + n) (hfirst : 2 ≤ n) (hlast : n < 32) :
    lead b = (.inside [b] 0x80 0xBF 0 n, []) := by
  simp only [lead, hb]
  rw [if_neg (by omega), if_neg (by omega), if_pos (by omega), Nat.add_sub_cancel_left]

theorem lead_three (hb : b.toNat = 0xE0 + n) (hlast : n < 16) :
    lead b = (.inside [b] (if n = 0 then 0xA0 else 0x80) (if n = 0xD then 0x9F else 0xBF) 1 n, [])
      := by
  have hlow : 0xE0 + n = 0xE0 ↔ n = 0 := by omega
  have hhigh : 0xE0 + n = 0xED ↔ n = 0xD := by omega
  simp only [lead, hb, hlow, hhigh]
  rw [if_neg (by omega), if_neg (by omega), if_neg (by omega), if_pos (by omega),
    Nat.add_sub_cancel_left]

theorem lead_four (hb : b.toNat = 0xF0 + n) (hlast : n < 5) :
    lead b = (.inside [b] (if n = 0 then 0x90 else 0x80) (if n = 4 then 0x8F else 0xBF) 2 n, [])
      := by
  have hlow : 0xF0 + n = 0xF0 ↔ n = 0 := by omega
  have hhigh : 0xF0 + n = 0xF4 ↔ n = 4 := by omega
  simp only [lead, hb, hlow, hhigh]
  rw [if_neg (by omega), if_neg (by omega), if_neg (by omega), if_neg (by omega), if_pos (by omega),
    Nat.add_sub_cancel_left]

end Lead

/-- The bounds on the second byte let in all characters, although they keep out other values. -/
theorem decode_encodeChar_append (c : Char) (rest : Bytes) :
    decode (encodeChar c ++ rest) = .char c :: decode rest := by
  have hvalid : c.toNat < 0xD800 ∨ 0xDFFF < c.toNat ∧ c.toNat < 0x110000 := c.valid
  have hc : Char.ofNat c.toNat = c := Char.ofNat_toNat c
  simp only [encodeChar]
  generalize c.toNat = n at hvalid hc
  have hbyte : ∀ m < 256, (UInt8.ofNat m).toNat = m := fun m => UInt8.toNat_ofNat_of_lt
  have hrest : ∀ m, (UInt8.ofNat (0x80 + m % 64)).toNat = 0x80 + m % 64 :=
    fun m => hbyte _ (by omega)
  by_cases hone : n < 0x80
  · rw [if_pos hone, List.singleton_append, decode, decodeFrom_cons, step,
      lead_one (hbyte n (by omega)) hone, hc]
    rfl
  by_cases htwo : n < 0x800
  · have hn : n / 64 * 64 + n % 64 = n := by omega
    rw [if_neg hone, if_pos htwo]
    simp only [decode, List.cons_append, List.nil_append]
    rw [decodeFrom_cons, step, lead_two (hbyte _ (by omega)) (by omega) (by omega), List.nil_append,
      decodeFrom_last (hrest n) (by omega) (by omega), hn, hc, decode]
  by_cases hthree : n < 0x10000
  · have hn : (n / 4096 * 64 + n / 64 % 64) * 64 + n % 64 = n := by omega
    rw [if_neg hone, if_neg htwo, if_pos hthree]
    simp only [decode, List.cons_append, List.nil_append]
    rw [decodeFrom_cons, step, lead_three (hbyte _ (by omega)) (by omega), List.nil_append,
      decodeFrom_more (hrest _) (by split <;> omega) (by split <;> omega),
      decodeFrom_last (hrest n) (by omega) (by omega), hn, hc, decode]
  · have hn : ((n / 262144 * 64 + n / 4096 % 64) * 64 + n / 64 % 64) * 64 + n % 64 = n := by omega
    rw [if_neg hone, if_neg htwo, if_neg hthree]
    simp only [decode, List.cons_append, List.nil_append]
    rw [decodeFrom_cons, step, lead_four (hbyte _ (by omega)) (by omega), List.nil_append,
      decodeFrom_more (hrest _) (by split <;> omega) (by split <;> omega),
      decodeFrom_more (hrest _) (by omega) (by omega),
      decodeFrom_last (hrest n) (by omega) (by omega), hn, hc, decode]

theorem decode_encode (t : Text) : decode (encode t) = t.map .char := by
  induction t with
  | nil => rfl
  | cons c t ih =>
    have hcons : encode (c :: t) = encodeChar c ++ encode t := List.flatMap_cons
    rw [hcons, decode_encodeChar_append, ih, List.map_cons]

/-- What is written can be read again, by either reading. -/
theorem decode?_encode (t : Text) : decode? (encode t) = some t := by
  rw [decode?, decode_encode]
  induction t with
  | nil => rfl
  | cons c t ih => simp [Item.char?, ih]

theorem encode_inj {t u : Text} : encode t = encode u ↔ t = u := by
  constructor
  · intro h
    have hread := congrArg decode? h
    rw [decode?_encode, decode?_encode] at hread
    exact Option.some.inj hread
  · intro h
    rw [h]

theorem decodeLossy_encode (t : Text) : decodeLossy (encode t) = t :=
  decodeLossy_of_decode? (decode?_encode t)

end Marginalia.Utf8
