import DspcDriver.Upload.Parser

/-!
# The table of an image

The bytes of a boot table show where it ends and what it is (`encode_append_inj`): no table begins
another, and no image begins with two. So an upload that the parser is safe on is the upload of one table
(`upload_table_iff`).
-/

namespace Dspc

open Lib

/-- The first word of an image and what is behind it. -/
theorem wordBytes_append_inj {w w' : Word} {p p' : List Byte}
    (h : wordBytes w ++ p = wordBytes w' ++ p') : w = w' ∧ p = p' := by
  have hw := congrArg byteTo32bits h
  rw [byteTo32bits_wordBytes, byteTo32bits_wordBytes, Option.some.injEq] at hw
  subst hw
  exact ⟨rfl, List.append_cancel_left h⟩

/-- As many words, and what is behind them. -/
theorem encodeWords_append_inj {ws ws' : List Word} {p p' : List Byte} (hlen : ws.length = ws'.length)
    (h : encodeWords ws ++ p = encodeWords ws' ++ p') : ws = ws' ∧ p = p' := by
  induction ws generalizing ws' with
  | nil =>
    obtain rfl := List.length_eq_zero_iff.mp hlen.symm
    exact ⟨rfl, h⟩
  | cons w ws ih =>
    obtain ⟨w', ws', rfl⟩ := List.exists_cons_of_length_eq_add_one hlen.symm
    rw [encodeWords_cons, encodeWords_cons, List.append_assoc, List.append_assoc] at h
    obtain ⟨rfl, hrest⟩ := wordBytes_append_inj h
    obtain ⟨rfl, rfl⟩ := ih (Nat.succ.inj hlen) hrest
    exact ⟨rfl, rfl⟩

theorem Section.ext_of {s s' : Section} (hsize : s.size = s'.size) (hstart : s.start = s'.start)
    (hdata : s.data = s'.data) : s = s' := by
  cases s
  cases s'
  cases hsize
  cases hstart
  cases hdata
  rfl

/-- The sections, which a zero size word ends. -/
theorem sections_append_inj {ss ss' : List Section} {p p' : List Byte}
    (h : (ss.flatMap Section.encode ++ wordBytes 0) ++ p =
      (ss'.flatMap Section.encode ++ wordBytes 0) ++ p') : ss = ss' ∧ p = p' := by
  induction ss generalizing ss' with
  | nil =>
    rw [flatMap_encode, flatMap_encode ss', List.append_assoc, List.append_assoc] at h
    obtain ⟨hsize, htail⟩ := wordBytes_append_inj h
    cases ss' with
    | nil => exact ⟨rfl, htail⟩
    | cons s' ss' => exact absurd hsize.symm s'.size_ne
  | cons s ss ih =>
    rw [flatMap_encode, flatMap_encode ss', List.append_assoc, List.append_assoc] at h
    obtain ⟨hsize, htail⟩ := wordBytes_append_inj h
    cases ss' with
    | nil => exact absurd hsize s.size_ne
    | cons s' ss' =>
      have hsize : s.size = s'.size := hsize
      simp only [tailBytes, List.append_assoc] at htail
      obtain ⟨hstart, hdata⟩ := wordBytes_append_inj htail
      -- the size says how many words there are
      have hlen : s.data.length = s'.data.length := by rw [s.length_data, s'.length_data, hsize]
      obtain ⟨hwords, hrest⟩ := encodeWords_append_inj hlen hdata
      rw [← List.append_assoc, ← List.append_assoc] at hrest
      obtain ⟨rfl, rfl⟩ := ih hrest
      exact ⟨congrArg (· :: ss) (Section.ext_of hsize hstart hwords), rfl⟩

/-- **A table and its end can be read off its bytes.** -/
theorem encode_append_inj {t t' : BootTable} {p p' : List Byte}
    (h : t.encode ++ p = t'.encode ++ p') : t = t' ∧ p = p' := by
  simp only [BootTable.encode, List.append_assoc] at h
  obtain ⟨hentry, hrest⟩ := wordBytes_append_inj h
  rw [← List.append_assoc, ← List.append_assoc] at hrest
  obtain ⟨hsections, rfl⟩ := sections_append_inj hrest
  refine ⟨?_, rfl⟩
  rcases t with ⟨entry, sections⟩
  rcases t' with ⟨entry', sections'⟩
  cases hentry
  cases hsections
  rfl

/-- `uploadProgram` consumes the bytes of the table and stores its sections and the boot magic. -/
def Uploads (image : List Byte) (core : Byte) (t : BootTable) : Prop :=
  ∃ rest, image = t.encode ++ rest ∧ uploadProgram image core =
    ⟨callStores (t.sections.flatMap (Section.calls core)) ++ [(magicLoc, t.entry)], .ok (0, rest)⟩

/-- **A safe upload is that of one table**: the parser is safe on an image exactly if there is one and
only one table, of sizes that do not wrap, that it uploads from it. -/
theorem upload_table_iff (image : List Byte) (core : Byte) :
    ParserSafe image core ↔ ∃! t : BootTable, t.NoWrap ∧ Uploads image core t := by
  rw [parserSafe_iff]
  constructor
  · rintro ⟨t, ht, rest, rfl⟩
    refine ⟨t, ⟨ht, rest, rfl, uploadProgram_encode t rest core ht⟩, ?_⟩
    rintro t' ⟨-, rest', h, -⟩
    exact (encode_append_inj h).1.symm
  · rintro ⟨t, ⟨ht, rest, h, -⟩, -⟩
    exact ⟨t, ht, rest, h.symm⟩

end Dspc
