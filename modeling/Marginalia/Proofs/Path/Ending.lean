import Marginalia.Proofs.Path.Below
import Marginalia.Proofs.Text.Decoding
/-!
The name that a path ends in, and the ending of that name. What stands in front of the name is told
by its bytes alone: there are none, or the last one is a slash.
-/

namespace Marginalia

namespace Utf8

theorem encode_append (t u : Text) : encode (t ++ u) = encode t ++ encode u := List.flatMap_append

/-- A character is a single low byte, or none of its bytes is low. -/
theorem encodeChar_cases (c : Char) :
    c.toNat < 0x80 ∧ encodeChar c = [.ofNat c.toNat] ∨ ∀ b ∈ encodeChar c, 0x80 ≤ b.toNat := by
  have hvalid : c.toNat < 0xD800 ∨ 0xDFFF < c.toNat ∧ c.toNat < 0x110000 := c.valid
  have hhigh : ∀ m, 0x80 ≤ m → m < 256 → 0x80 ≤ (UInt8.ofNat m).toNat := by
    intro m hlow hm
    have hbyte : (UInt8.ofNat m).toNat = m := UInt8.toNat_ofNat_of_lt hm
    omega
  have hrest : ∀ m, 0x80 ≤ (UInt8.ofNat (0x80 + m % 64)).toNat :=
    fun m => hhigh _ (by omega) (by omega)
  by_cases hone : c.toNat < 0x80
  · exact Or.inl ⟨hone, if_pos hone⟩
  · right
    simp only [encodeChar, if_neg hone]
    split
    · simp only [List.forall_mem_cons]
      exact ⟨hhigh _ (by omega) (by omega), hrest _, List.forall_mem_nil _⟩
    · split
      · simp only [List.forall_mem_cons]
        exact ⟨hhigh _ (by omega) (by omega), hrest _, hrest _, List.forall_mem_nil _⟩
      · simp only [List.forall_mem_cons]
        exact ⟨hhigh _ (by omega) (by omega), hrest _, hrest _, hrest _, List.forall_mem_nil _⟩

theorem slash_not_mem_encode {t : Text} (h : '/' ∉ t) : Path.slash ∉ encode t := by
  intro hmem
  obtain ⟨c, hc, hb⟩ := List.mem_flatMap.mp hmem
  obtain ⟨hlow, hone⟩ | hhigh := encodeChar_cases c
  · rw [hone] at hb
    have hbyte : (UInt8.ofNat c.toNat).toNat = c.toNat :=
      UInt8.toNat_ofNat_of_lt (Nat.lt_trans hlow (by decide))
    have hcode : c.toNat = '/'.toNat := by
      rw [← hbyte, ← List.mem_singleton.mp hb]
      rfl
    exact h (Char.toNat_inj.mp hcode ▸ hc)
  · exact absurd (hhigh _ hb) (by decide)

end Utf8

namespace Path

/-- Bytes that a name can follow in a path. -/
def Leads (front : Bytes) : Prop := front = [] ∨ front.getLast? = some slash

section Leading

variable {front : Bytes} {name : Name}

theorem Leads.append {first second : Bytes} (hfirst : Leads first) (hsecond : Leads second) :
    Leads (first ++ second) := by
  rcases hsecond with rfl | hlast
  · rwa [List.append_nil]
  · right
    rw [List.getLast?_append, hlast, Option.some_or]

theorem leads_concat (front : Bytes) : Leads (front ++ [slash]) := by
  right
  rw [List.getLast?_append]
  rfl

/-- Where a path sets out from is marked in front of its last name, which stays as it is. -/
theorem exists_split_of_leads (h : Leads front) (hname : slash ∉ name)
    (hbusy : isIdle name = false) : ∃ body, (⟨front ++ name⟩ : Path).split.2 = body ++ [name] := by
  have hfirst : name ≠ [] ∧ name ≠ current := by
    simpa [isIdle] using hbusy
  rcases List.eq_nil_or_concat' front with rfl | ⟨before, last, rfl⟩
  · refine ⟨[], ?_⟩
    rw [List.nil_append, split, segments_of_name hname]
    simp [hfirst]
  · obtain rfl : last = slash := by
      rcases h with hnil | hlast
      · simp at hnil
      · simpa using hlast
    have hne : before ++ [slash] ≠ [] := by simp
    have hbelow :
        (⟨before ++ [slash] ++ name⟩ : Path) = (⟨before ++ [slash]⟩ : Path).below name := by
      rw [below_eq hne hname]
      simp
    obtain ⟨body, _, _, _, hsplit⟩ := exists_split_below (p := ⟨before ++ [slash]⟩) hne hname
    exact ⟨body, by rw [hbelow, hsplit]⟩

theorem fileName?_of_leads (h : Leads front) (hname : slash ∉ name) (hbusy : isIdle name = false)
    (hparent : name ≠ parentName) : (⟨front ++ name⟩ : Path).fileName? = some name := by
  obtain ⟨body, hbody⟩ := exists_split_of_leads h hname hbusy
  simp [fileName?, hbody, dropIdleEnd, hbusy, hparent]

end Leading

/-- A path that is put below another one comes after bytes that a name can follow. -/
theorem exists_join_eq (p q : Path) : ∃ front, Leads front ∧ p.join q = ⟨front ++ q.bytes⟩ := by
  rw [join]
  split
  · exact ⟨[], Or.inl rfl, rfl⟩
  · split
    · exact ⟨p.bytes, ‹_›, rfl⟩
    · refine ⟨p.bytes ++ [slash], leads_concat _, ?_⟩
      rw [List.append_assoc]
      rfl

/-- The last name of a text that is a path starts after its last slash. -/
theorem exists_encode_eq (t : Text) :
    ∃ front last, Leads front ∧ '/' ∉ last ∧ Utf8.encode t = front ++ Utf8.encode last := by
  obtain ⟨c, rfl⟩ := Cut.exists_join '/' t
  refine ⟨Utf8.encode (c.ended.flatMap (· ++ ['/'])), c.rest, ?_, c.rest_free,
    Utf8.encode_append _ _⟩
  rcases List.eq_nil_or_concat' c.ended with hnil | ⟨before, part, hpart⟩
  · rw [hnil]
    exact Or.inl rfl
  · rw [hpart, List.flatMap_append, List.flatMap_singleton, ← List.append_assoc,
      Utf8.encode_append]
    exact leads_concat _

section Endings

variable {token : Text}

/-- A name with a dot and something behind it is none of those that are dots throughout. -/
theorem encode_ne_of_dots (hne : token ≠ []) (hdot : '.' ∉ token) (stem dots : Text)
    (hdots : ∀ c ∈ dots, c = '.') : Utf8.encode (stem ++ '.' :: token) ≠ Utf8.encode dots := by
  intro h
  obtain ⟨c, hc⟩ := List.exists_mem_of_ne_nil token hne
  have hmem : c ∈ dots := by
    rw [← Utf8.encode_inj.mp h]
    exact List.mem_append_right _ (List.mem_cons_of_mem _ hc)
  exact hdot (hdots c hmem ▸ hc)

theorem token?_of_fileName? {p : Path} {stem : Text} (hdot : '.' ∉ token)
    (h : p.fileName? = some (Utf8.encode (stem ++ '.' :: token))) : p.token? = some token := by
  have hmem : '.' ∈ stem ++ '.' :: token := List.mem_append_right _ List.mem_cons_self
  have hend : (stem ++ '.' :: token).reverse.takeWhile (· ≠ '.') = token.reverse := by
    rw [List.reverse_append, List.reverse_cons, List.append_assoc, List.takeWhile_append_of_pos]
    · simp
    · intro c hc
      have hne : c ≠ '.' := fun he => hdot (he ▸ List.mem_reverse.mp hc)
      simpa using hne
  rw [token?, h, Option.bind_some, Utf8.decode?_encode, Option.bind_some, if_pos hmem, hend,
    List.reverse_reverse]

/-- Whatever the text is that a path is joined with, the last name comes from its end. -/
theorem exists_fileName?_join (hne : token ≠ []) (hdot : '.' ∉ token) (hslash : '/' ∉ token)
    (p : Path) (stem : Text) : ∃ last,
      (p.join (.ofText (stem ++ '.' :: token))).fileName? =
        some (Utf8.encode (last ++ '.' :: token)) := by
  obtain ⟨above, habove, hjoin⟩ := exists_join_eq p (.ofText (stem ++ '.' :: token))
  obtain ⟨front, last, hfront, hlast, hstem⟩ := exists_encode_eq stem
  have hbytes : (⟨above ++ (Path.ofText (stem ++ '.' :: token)).bytes⟩ : Path) =
      ⟨(above ++ front) ++ Utf8.encode (last ++ '.' :: token)⟩ := by
    simp only [ofText, Utf8.encode_append, hstem, List.append_assoc]
  have hname : '/' ∉ last ++ '.' :: token := by
    simp [hlast, hslash]
  have hnil := encode_ne_of_dots hne hdot last [] (by simp)
  have hcurrent := encode_ne_of_dots hne hdot last ['.'] (by simp)
  have hparent := encode_ne_of_dots hne hdot last ['.', '.'] (by simp)
  have hbusy : isIdle (Utf8.encode (last ++ '.' :: token)) = false := by
    rw [isIdle, Bool.or_eq_false_iff]
    exact ⟨beq_eq_false_iff_ne.mpr hnil, beq_eq_false_iff_ne.mpr hcurrent⟩
  rw [hjoin, hbytes]
  exact ⟨last, fileName?_of_leads (habove.append hfront) (Utf8.slash_not_mem_encode hname) hbusy
    hparent⟩

/-- A text's ending is the ending of any path that the text is joined to. -/
theorem token?_join (hne : token ≠ []) (hdot : '.' ∉ token) (hslash : '/' ∉ token) (p : Path)
    (stem : Text) : (p.join (.ofText (stem ++ '.' :: token))).token? = some token := by
  obtain ⟨last, hlast⟩ := exists_fileName?_join hne hdot hslash p stem
  exact token?_of_fileName? hdot hlast

end Endings

end Path

end Marginalia
