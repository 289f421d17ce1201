import NamedData.Proofs.Grammar

namespace NamedData

namespace Bytes

def ofChars (cs : List Char) : Bytes := cs.flatMap String.utf8EncodeChar

theorem ofText_ofList (cs : List Char) : ofText (String.ofList cs) = ofChars cs := by
  rw [ofText, String.toUTF8, String.toByteArray_ofList, List.utf8Encode, List.data_toByteArray,
    ofChars]

/-- ASCII codes are the UTF-8 form of their text. -/
theorem ofText_toText {bs : Bytes} (hbs : ∀ b ∈ bs, b < 0x80) : ofText (toText bs) = bs := by
  have hchar (b : UInt8) (hb : b < 0x80) : String.utf8EncodeChar (Char.ofNat b.toNat) = [b] := by
    have hlt : b.toNat < 128 := UInt8.lt_iff_toNat_lt.mp hb
    have hval : (Char.ofNat b.toNat).val.toNat = b.toNat := by
      rw [Char.ofNat, dif_pos (Or.inl (by omega))]
      rfl
    rw [String.utf8EncodeChar, hval, if_pos (by omega), UInt8.ofNat_toNat]
  rw [toText, ofText_ofList, ofChars, List.flatMap_map,
    List.flatMap_congr (g := fun b => [b]) fun b hb => hchar b (hbs b hb)]
  simp

end Bytes

namespace Component

section Writing

variable {c : Component} {b : UInt8}

theorem toUri_replicate (k : Nat) :
    toUri ⟨List.replicate k period⟩ = List.replicate (k+3) period := by
  have hself : Percent.encode (List.replicate k period) = List.replicate k period := by
    induction k with
    | zero => rfl
    | succ k ih =>
      rw [List.replicate_succ, Percent.encode, List.flatMap_cons]
      exact congrArg (period :: ·) ih
  rw [toUri, hself, if_pos (by simp), List.replicate_append_replicate, Nat.add_comm]

theorem toUri_of_text (hc : ¬∀ b ∈ c.bytes, b = period) : c.toUri = Percent.encode c.bytes := by
  simp [toUri, hc]

theorem not_dots_encode (hc : ¬∀ b ∈ c.bytes, b = period) :
    ¬∀ b ∈ Percent.encode c.bytes, b = period := by
  intro hs
  obtain ⟨k, hk⟩ := Segment.exists_replicate hs
  have hbytes : Percent.Denotes (List.replicate k period) c.bytes :=
    hk ▸ Percent.denotes_encode c.bytes
  rw [hbytes.unique (Segment.denotes_replicate k)] at hc
  exact hc fun b hb => List.eq_of_mem_replicate hb

/-- What is written for a component denotes it. -/
theorem denotes_toUri (c : Component) : Segment.Denotes c.toUri c.bytes := by
  by_cases hc : ∀ b ∈ c.bytes, b = period
  · obtain ⟨k, hk⟩ := Segment.exists_replicate hc
    obtain rfl : c = ⟨List.replicate k period⟩ := by rw [← hk]
    rw [toUri_replicate, Segment.denotes_dots_iff fun b hb => List.eq_of_mem_replicate hb]
    simp
  · rw [toUri_of_text hc]
    exact .text (not_dots_encode hc) (Percent.denotes_encode c.bytes)

theorem valid_toUri (hc : c.isEmpty = false) : Segment.Valid c.toUri := by
  by_cases hdots : ∀ b ∈ c.bytes, b = period
  · obtain ⟨k, hk⟩ := Segment.exists_replicate hdots
    obtain rfl : c = ⟨List.replicate k period⟩ := by rw [← hk]
    have hpos : k ≠ 0 := by
      rintro rfl
      cases hc
    rw [toUri_replicate, Segment.valid_replicate_iff]
    omega
  · rw [toUri_of_text hdots]
    exact Segment.valid_of_text (not_dots_encode hdots)
      (Percent.escaped_iff.mpr ⟨_, Percent.denotes_encode c.bytes⟩)

theorem mem_toUri (hb : b ∈ c.toUri) : b = Percent.sign ∨ Percent.unreserved b = true := by
  rw [toUri, List.mem_append] at hb
  rcases hb with hb | hb
  · split at hb
    · rw [List.eq_of_mem_replicate hb]
      decide
    · cases hb
  · exact Percent.mem_encode hb

theorem lt_of_mem_toUri (hb : b ∈ c.toUri) : b < 0x80 := by
  rcases mem_toUri hb with rfl | hb
  · decide
  · grind [Percent.unreserved]

theorem slash_notMem_toUri (c : Component) : slash ∉ c.toUri := by
  intro hslash
  rcases mem_toUri hslash with h | h <;> cases h

theorem ofText_toText (hc : c.isEmpty = false) : ofText c.toText = .ok c := by
  rw [ofText, toText, Bytes.ofText_toText fun b hb => lt_of_mem_toUri hb]
  exact Segment.ofSegment_eq_ok_iff.mpr ⟨valid_toUri hc, denotes_toUri c⟩

end Writing

end Component

namespace Name

section Writing

variable {n m : Name} {uri : String}

theorem segmented_toUri (hn : ∀ c ∈ n.components, c.isEmpty = false) :
    Segmented n.toUri (n.components.map Component.toUri) := by
  constructor
  · intro s hs
    obtain ⟨c, _, rfl⟩ := List.mem_map.mp hs
    exact Component.slash_notMem_toUri c
  · rw [toUri, isRoot]
    cases hcs : n.components with
    | nil => exact Or.inl rfl
    | cons c cs =>
      refine Or.inr ⟨by simp [spell, List.flatMap_map], by simp, ?_⟩
      intro hlast
      obtain ⟨d, hd, hempty⟩ := List.mem_map.mp (List.mem_of_getLast? hlast)
      exact (Component.valid_toUri (hn d (hcs ▸ hd))).nonempty hempty

theorem head?_toUri (n : Name) : n.toUri.head? = some slash := by
  rw [toUri, isRoot]
  cases n.components <;> rfl

theorem lt_of_mem_uri {b : UInt8} (hb : b ∈ n.toUri) : b < 0x80 := by
  rw [toUri] at hb
  split at hb
  · rw [List.mem_singleton.mp hb]
    decide
  · obtain ⟨c, _, hb⟩ := List.mem_flatMap.mp hb
    rcases List.mem_cons.mp hb with rfl | hb
    · decide
    · exact Component.lt_of_mem_toUri hb

theorem path_toText (n : Name) : path n.toText = n.toUri := by
  have hbytes : Bytes.ofText n.toText = n.toUri := Bytes.ofText_toText fun b hb => lt_of_mem_uri hb
  have hstart : pathStart n.toText = 0 := by
    obtain ⟨rest, hrest⟩ := List.head?_eq_some_iff.mp (head?_toUri n)
    rw [pathStart, hbytes, hrest]
    rfl
  rw [path, hbytes, hstart, List.drop_zero]

theorem ofText_toText (hn : ∀ c ∈ n.components, c.isEmpty = false) : ofText n.toText = .ok n := by
  refine ofText_eq_ok_iff.mpr ⟨n.components.map Component.toUri, ?_, ?_, ?_⟩
  · rw [path_toText]
    exact segmented_toUri hn
  · intro s hs
    obtain ⟨c, hc, rfl⟩ := List.mem_map.mp hs
    exact Component.valid_toUri (hn c hc)
  · rw [List.forall₂_map_left_iff, List.forall₂_same]
    exact fun c _ => Component.denotes_toUri c

/-- Names and components that have bytes are read back from what is written for them, so that no two
such names are written alike. Every name that is read is among them. -/
theorem uri_roundTrip :
    (∀ n : Name, (∀ c ∈ n.components, c.isEmpty = false) →
      ofText n.toText = .ok n ∧ ∀ c ∈ n.components, Component.ofText c.toText = .ok c) ∧
    (∀ n m : Name, (∀ c ∈ n.components, c.isEmpty = false) →
      (∀ c ∈ m.components, c.isEmpty = false) → n.toText = m.toText → n = m) ∧
    ∀ uri n, ofText uri = .ok n → ofText n.toText = .ok n := by
  refine ⟨?_, ?_, ?_⟩
  · intro n hn
    exact ⟨ofText_toText hn, fun c hc => Component.ofText_toText (hn c hc)⟩
  · intro n m hn hm htext
    have hread : ofText n.toText = .ok m := htext ▸ ofText_toText hm
    exact Except.ok.inj ((ofText_toText hn).symm.trans hread)
  · intro uri n hread
    exact ofText_toText (isEmpty_of_ofText hread)

theorem uri_roundTrip_periods :
    toText ⟨[⟨[period, period]⟩, ⟨[slash, Percent.sign, 0x00, 0xFF]⟩]⟩ = "/...../%2F%25%00%FF" ∧
    ofText "/...../%2F%25%00%FF" =
      .ok ⟨[⟨[period, period]⟩, ⟨[slash, Percent.sign, 0x00, 0xFF]⟩]⟩ := by
  have htext : toText ⟨[⟨[period, period]⟩, ⟨[slash, Percent.sign, 0x00, 0xFF]⟩]⟩ =
      "/...../%2F%25%00%FF" := by decide
  exact ⟨htext, htext ▸ (uri_roundTrip.1 _ (by decide)).1⟩

end Writing

end Name

end NamedData
