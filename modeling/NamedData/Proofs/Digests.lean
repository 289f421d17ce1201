import NamedData.Proofs.Answering
import NamedData.Proofs.Versions

namespace NamedData

namespace Bytes

theorem ofNat_inj {width a b : Nat} (ha : a < 1 <<< (8*width)) (hb : b < 1 <<< (8*width))
    (h : ofNat width a = ofNat width b) : a = b := by
  have hab : ¬ofNat width a < ofNat width b := by
    rw [h]
    exact List.lt_irrefl _
  have hba : ¬ofNat width b < ofNat width a := by
    rw [h]
    exact List.lt_irrefl _
  rw [ofNat_lt_ofNat, Nat.mod_eq_of_lt ha, Nat.mod_eq_of_lt hb] at hab hba
  omega

/-- A numeral of eight bytes ends where it ends, whatever follows. -/
theorem ofNat_append_inj {a b : Nat} {s t : Bytes} (ha : a < UInt64.size) (hb : b < UInt64.size)
    (h : ofNat 8 a ++ s = ofNat 8 b ++ t) : a = b ∧ s = t := by
  obtain ⟨hdigits, hrest⟩ := List.append_inj h (by simp)
  exact ⟨ofNat_inj ha hb hdigits, hrest⟩

end Bytes

def Sha256.Collides (m n : Bytes) : Prop := m ≠ n ∧ Digest.ofMessage m = Digest.ofMessage n

theorem Publisher.eq_of_digest {p q : Publisher} (h : p.digest = q.digest) : p = q := by
  cases p
  cases q
  exact congrArg mk h

theorem Timestamp.eq_of_ticks {t u : Timestamp} (h : t.ticks = u.ticks) : t = u := by
  cases t
  cases u
  exact congrArg mk h

theorem Kind.tag_inj {k l : Kind} (h : k.tag = l.tag) : k = l := by
  revert h
  cases k <;> cases l <;> decide

namespace Content

/-- All lengths that the encoding writes down fit into eight bytes. -/
structure Sized (o : Content) : Prop where
  count : o.name.length < UInt64.size
  components : ∀ c ∈ o.name.components, c.length < UInt64.size
  payload : o.payload.length < UInt64.size

instance (o : Content) : Decidable o.Sized :=
  decidable_of_iff (o.name.length < UInt64.size ∧
      (∀ c ∈ o.name.components, c.length < UInt64.size) ∧ o.payload.length < UInt64.size)
    ⟨fun h => ⟨h.1, h.2.1, h.2.2⟩, fun h => ⟨h.count, h.components, h.payload⟩⟩

theorem framed_append_inj {bs cs s t : Bytes} (hbs : bs.length < UInt64.size)
    (hcs : cs.length < UInt64.size) (h : framed bs ++ s = framed cs ++ t) : bs = cs ∧ s = t := by
  simp only [framed, List.append_assoc] at h
  obtain ⟨hlength, hrest⟩ := Bytes.ofNat_append_inj hbs hcs h
  exact List.append_inj hrest hlength

theorem components_append_inj {cs ds : List Component} {s t : Bytes}
    (hlength : cs.length = ds.length) (hcs : ∀ c ∈ cs, c.length < UInt64.size)
    (hds : ∀ d ∈ ds, d.length < UInt64.size)
    (h : (cs.flatMap fun c => framed c.bytes) ++ s = (ds.flatMap fun d => framed d.bytes) ++ t) :
    cs = ds ∧ s = t := by
  induction cs generalizing ds with
  | nil =>
    obtain rfl : ds = [] := List.eq_nil_of_length_eq_zero hlength.symm
    exact ⟨rfl, h⟩
  | cons c cs ih =>
    cases ds with
    | nil => cases hlength
    | cons d ds =>
      rw [List.forall_mem_cons] at hcs hds
      simp only [List.flatMap_cons, List.append_assoc] at h
      obtain ⟨hbytes, hrest⟩ := framed_append_inj hcs.1 hds.1 h
      obtain ⟨htail, hst⟩ := ih (by simpa using hlength) hcs.2 hds.2 hrest
      exact ⟨by rw [Component.eq_of_bytes hbytes, htail], hst⟩

/-- The parts of an encoding are read off one after the other, and it ends where it ends. -/
theorem encoding_append_inj {a b : Content} {s t : Bytes} (ha : a.Sized) (hb : b.Sized)
    (h : a.encoding ++ s = b.encoding ++ t) : a = b ∧ s = t := by
  simp only [encoding, List.append_assoc] at h
  obtain ⟨hcount, h⟩ := Bytes.ofNat_append_inj ha.count hb.count h
  obtain ⟨hname, h⟩ := components_append_inj hcount ha.components hb.components h
  obtain ⟨hpublisher, h⟩ := List.append_inj h (by simp)
  obtain ⟨htime, h⟩ := Bytes.ofNat_append_inj a.timestamp.ticks.toNat_lt b.timestamp.ticks.toNat_lt h
  obtain ⟨htag, h⟩ := List.append_inj h rfl
  obtain ⟨hpayload, h⟩ := framed_append_inj ha.payload hb.payload h
  have hsame : a.publisher = b.publisher := Publisher.eq_of_digest (Vector.toList_inj.mp hpublisher)
  have hticks : a.timestamp = b.timestamp := Timestamp.eq_of_ticks (UInt64.toNat_inj.mp htime)
  have hkind : a.kind = b.kind := Kind.tag_inj (List.singleton_inj.mp htag)
  refine ⟨?_, h⟩
  cases a
  cases b
  rw [mk.injEq]
  exact ⟨Name.eq_of_components hname, hsame, hticks, hkind, hpayload⟩

theorem eq_of_begins {a b : Content} (ha : a.Sized) (hb : b.Sized)
    (h : a.encoding <+: b.encoding) : a = b := by
  obtain ⟨t, ht⟩ := h
  exact (encoding_append_inj ha hb (ht.trans (List.append_nil _).symm)).1

theorem digestComponent_inj {a b : Content} (h : a.digestComponent = b.digestComponent) :
    a.digest = b.digest :=
  Vector.toList_inj.mp (congrArg Component.bytes h)

theorem digest_eq_iff {a b : Content} (ha : a.Sized) (hb : b.Sized) (hne : a ≠ b) :
    a.digest = b.digest ↔ Sha256.Collides a.encoding b.encoding := by
  have hencoding : a.encoding ≠ b.encoding := by
    intro h
    exact hne (eq_of_begins ha hb (h ▸ List.prefix_rfl))
  exact ⟨fun h => ⟨hencoding, h⟩, fun h => h.2⟩

/-- Contents are equal as soon as the encoding of one begins that of the other. Different ones share
a digest, or its component, or their full name, exactly if the hash collides on their encodings;
for the full name they have to be of one name as well. -/
theorem encoding_binds {a b : Content} (ha : a.Sized) (hb : b.Sized) :
    (a.encoding <+: b.encoding ∨ b.encoding <+: a.encoding ↔ a = b) ∧
    (a ≠ b →
      (a.digest = b.digest ↔ Sha256.Collides a.encoding b.encoding) ∧
      (a.digestComponent = b.digestComponent ↔ Sha256.Collides a.encoding b.encoding) ∧
      (a.fullName = b.fullName ↔ a.name = b.name ∧ Sha256.Collides a.encoding b.encoding)) := by
  constructor
  · constructor
    · rintro (h | h)
      · exact eq_of_begins ha hb h
      · exact (eq_of_begins hb ha h).symm
    · rintro rfl
      exact Or.inl List.prefix_rfl
  · intro hne
    rw [← digest_eq_iff ha hb hne]
    refine ⟨Iff.rfl, ⟨digestComponent_inj, ?_⟩, ⟨fullName_inj, ?_⟩⟩
    · intro h
      rw [digestComponent, digestComponent, h]
    · rintro ⟨hname, hdigest⟩
      rw [fullName, fullName, digestComponent, digestComponent, hname, hdigest]

/-- The same bytes, cut between the components a and bc and between the components ab and c. -/
def cutA : Content := { blankAC with name := ⟨[⟨[97]⟩, ⟨[98, 99]⟩]⟩ }

def cutAB : Content := { blankAC with name := ⟨[⟨[97, 98]⟩, ⟨[99]⟩]⟩ }

/-- Where the same bytes are cut elsewhere, neither encoding begins the other. -/
theorem encoding_binds_cut :
    cutA.Sized ∧ cutAB.Sized ∧ cutA ≠ cutAB ∧
    ¬(cutA.encoding <+: cutAB.encoding ∨ cutAB.encoding <+: cutA.encoding) ∧
    (cutA.digest = cutAB.digest ↔ Sha256.Collides cutA.encoding cutAB.encoding) := by
  have hA : cutA.Sized := by decide
  have hAB : cutAB.Sized := by decide
  have hne : cutA ≠ cutAB := by decide
  obtain ⟨hbegins, hdigest⟩ := encoding_binds hA hAB
  exact ⟨hA, hAB, hne, fun h => hne (hbegins.mp h), (hdigest hne).1⟩

end Content

end NamedData
