import Mathlib.Order.Nat
import MailPattern.Engine.Regex
import MailPattern.Proofs.Search.Progress

/-!
# Proofs — Engine — Bytes

Where a match stands in bytes, given where it stands in characters.  Offsets grow with the position
(`byteOffset_lt`), so spans one behind the other make matches one behind the other
(`Match.precedes_ofSpan`), and the match at a span cuts the text between characters
(`Match.standsIn_ofSpan`).
-/

namespace MailPattern

/-- The offset of a character is the length in bytes of the text before it. -/
theorem byteOffset_eq (text : List Char) (n : Nat) :
    byteOffset text n = (String.ofList (text.take n)).utf8ByteSize := by
  have key : ∀ (cs : List Char) (n : Nat),
      cs.foldl (fun bytes c => bytes + c.utf8Size) n = n + (String.ofList cs).utf8ByteSize := by
    intro cs
    induction cs with
    | nil => exact fun n => rfl
    | cons c cs ih =>
      intro n
      rw [List.foldl_cons, ih, ← List.singleton_append, String.ofList_append,
        String.utf8ByteSize_append, Nat.add_assoc]
      congr 2
      exact String.utf8ByteSize_singleton.symm
  rw [byteOffset, key, Nat.zero_add]

theorem byteOffset_length (text : String) :
    byteOffset text.toList text.toList.length = text.utf8ByteSize := by
  rw [byteOffset_eq, List.take_length, String.ofList_toList]

/-- In ASCII a character is a byte. -/
theorem utf8ByteSize_of_ascii {text : String} (h : ∀ c ∈ text.toList, c.toNat < 0x80) :
    text.utf8ByteSize = text.length := by
  have key : ∀ (cs : List Char), (∀ c ∈ cs, c.toNat < 0x80) →
      (String.ofList cs).utf8ByteSize = cs.length := by
    intro cs
    induction cs with
    | nil => exact fun _ => rfl
    | cons c cs ih =>
      intro h
      obtain ⟨hc, hcs⟩ := List.forall_mem_cons.mp h
      have hsize : c.utf8Size = 1 := Char.utf8Size_eq_one_iff.mpr (Nat.le_of_lt_succ hc)
      rw [← List.singleton_append, String.ofList_append, String.utf8ByteSize_append, ih hcs,
        List.length_append, List.length_singleton, ← hsize]
      congr 1
      exact String.utf8ByteSize_singleton
  rw [← String.length_toList, ← key _ h, String.ofList_toList]

/-- What stands in front of a position tells its offset. -/
theorem byteOffset_append (before rest : String) :
    byteOffset (before ++ rest).toList before.toList.length = before.utf8ByteSize := by
  rw [byteOffset_eq, String.toList_append, List.take_left, String.ofList_toList]

theorem byteOffset_succ {text : List Char} {i : Nat} {c : Char} (h : text[i]? = some c) :
    byteOffset text (i + 1) = byteOffset text i + c.utf8Size := by
  rw [byteOffset, byteOffset, List.take_add_one, h]
  simp

/-- Offsets in bytes have the order of those in characters. -/
theorem byteOffset_lt {text : List Char} {i j : Nat} (hij : i < j) (hj : j ≤ text.length) :
    byteOffset text i < byteOffset text j := by
  induction j with
  | zero => omega
  | succ j ih =>
    have hlt : j < text.length := by omega
    rw [byteOffset_succ (List.getElem?_eq_getElem hlt)]
    have hpos := Char.utf8Size_pos text[j]
    rcases Nat.lt_succ_iff_lt_or_eq.mp hij with hlt | rfl
    · have := ih hlt (by omega)
      omega
    · omega

theorem byteOffset_le {text : List Char} {i j : Nat} (hij : i ≤ j) (hj : j ≤ text.length) :
    byteOffset text i ≤ byteOffset text j := by
  rcases Nat.eq_or_lt_of_le hij with rfl | hlt
  · exact le_rfl
  · exact (byteOffset_lt hlt hj).le

theorem byteOffset_inj {text : List Char} {i j : Nat} (hi : i ≤ text.length) (hj : j ≤ text.length) :
    byteOffset text i = byteOffset text j ↔ i = j := by
  refine ⟨fun h => ?_, congrArg _⟩
  rcases Nat.lt_trichotomy i j with hlt | heq | hlt
  · exact absurd h (byteOffset_lt hlt hj).ne
  · exact heq
  · exact absurd h (byteOffset_lt hlt hi).ne'

namespace Match

/-- The match lies in the text: it ends between characters, starts between characters, and its text
is what stands there. -/
structure StandsIn (text : String) (m : Match) : Prop where
  start_le : m.start ≤ m.stop
  stop_le : m.stop ≤ text.utf8ByteSize
  start_valid : (String.Pos.Raw.mk m.start).IsValid text
  stop_valid : (String.Pos.Raw.mk m.stop).IsValid text
  /-- The text, cut at both ends of the match. -/
  parts : ∃ before behind : String, text = before ++ m.text ++ behind ∧
    before.utf8ByteSize = m.start ∧ (before ++ m.text).utf8ByteSize = m.stop

/-- The second match stands behind the first: it starts at the end of the first or later, further on
than its start, and does not touch it when it is empty. -/
structure Precedes (m m' : Match) : Prop where
  stop_le : m.stop ≤ m'.start
  start_lt : m.start < m'.start
  apart : m'.start = m'.stop → m'.start ≠ m.stop

variable {text : String} {s t : Span}

theorem StandsIn.of_parts {m : Match} {before behind : String}
    (htext : text = before ++ m.text ++ behind) (hstart : before.utf8ByteSize = m.start)
    (hstop : (before ++ m.text).utf8ByteSize = m.stop) : m.StandsIn text where
  start_le := by
    rw [← hstart, ← hstop, String.utf8ByteSize_append]
    exact Nat.le_add_right ..
  stop_le := by
    rw [htext, String.utf8ByteSize_append, hstop]
    exact Nat.le_add_right ..
  start_valid := String.Pos.Raw.isValid_iff_exists_append.mpr
    ⟨before, m.text ++ behind, by rw [htext, String.append_assoc], by rw [← hstart]; rfl⟩
  stop_valid := String.Pos.Raw.isValid_iff_exists_append.mpr
    ⟨before ++ m.text, behind, htext, by rw [← hstop]; rfl⟩
  parts := ⟨before, behind, htext, hstart, hstop⟩

/-- **The match at a span cuts the text between characters.** -/
theorem standsIn_ofSpan (h : s.Within text.toList.length) : (ofSpan text.toList s).StandsIn text := by
  have hlist : text.toList.take s.start ++ (text.toList.drop s.start).take (s.stop - s.start) =
      text.toList.take s.stop := by
    rw [← List.take_add, Nat.add_sub_of_le h.start_le]
  have hbefore : String.ofList (text.toList.take s.start) ++ (ofSpan text.toList s).text =
      String.ofList (text.toList.take s.stop) := by
    rw [← hlist, String.ofList_append]
    rfl
  have htext : text = String.ofList (text.toList.take s.start) ++ (ofSpan text.toList s).text ++
      String.ofList (text.toList.drop s.stop) := by
    rw [hbefore, ← String.ofList_append, List.take_append_drop, String.ofList_toList]
  refine .of_parts htext (byteOffset_eq _ _).symm ?_
  rw [hbefore]
  exact (byteOffset_eq _ _).symm

/-- What stands from the start of the match on is the text from there. -/
theorem exists_parts (h : s.Within text.toList.length) : ∃ before behind : String,
    text = before ++ (ofSpan text.toList s).text ++ behind ∧
      before.utf8ByteSize = (ofSpan text.toList s).start ∧
      (before ++ (ofSpan text.toList s).text).utf8ByteSize = (ofSpan text.toList s).stop ∧
      ((ofSpan text.toList s).text ++ behind).toList = text.toList.drop s.start := by
  obtain ⟨before, behind, htext, hstart, hstop⟩ := (standsIn_ofSpan h).parts
  refine ⟨before, behind, htext, hstart, hstop, ?_⟩
  -- what stands before the match is as long as its bytes say
  have hlen : before.toList.length = s.start := by
    have hle : before.toList.length ≤ text.toList.length := by
      rw [htext, String.append_assoc, String.toList_append, List.length_append]
      exact Nat.le_add_right ..
    refine (byteOffset_inj hle (h.start_le.trans h.stop_le)).mp (Eq.trans ?_ hstart)
    conv_lhs => rw [htext, String.append_assoc]
    exact byteOffset_append _ _
  conv_rhs => rw [htext, String.append_assoc, String.toList_append, List.drop_left' hlen]

theorem precedes_ofSpan {text : List Char} (ht : t.Within text.length) (h : s.Precedes t) :
    (ofSpan text s).Precedes (ofSpan text t) := by
  have hstart := ht.start_le.trans ht.stop_le
  refine ⟨byteOffset_le h.stop_le hstart, byteOffset_lt h.start_lt hstart, fun hempty htouch => ?_⟩
  exact h.apart ((byteOffset_inj hstart ht.stop_le).mp hempty)
    ((byteOffset_inj hstart (h.stop_le.trans hstart)).mp htouch)

end Match

end MailPattern
