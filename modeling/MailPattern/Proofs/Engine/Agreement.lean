import MailPattern.Engine.Regex

/-!
# Proofs — Engine — Agreement

Regexes that cannot be told apart but by the names of their engines (`Regex.Agrees`): their patterns,
flags, answers and events are the same on every text and under every limit.  What is searched for
depends on the program alone, so a change of the engine's name is such a change
(`Regex.agrees_engine`).
-/

namespace MailPattern

namespace Regex

/-- The regexes are of the same pattern and flags, and report the same on every text. -/
structure Agrees (r r' : Regex) : Prop where
  pattern : r.pattern = r'.pattern
  flags : r.flags = r'.flags
  isMatch (text : String) (limit : Backtrack.Limit) : r.isMatch text limit = r'.isMatch text limit
  nexts (text : String) (calls : Nat) (limit : Backtrack.Limit) :
    r.nexts text calls limit = r'.nexts text calls limit
  allMatches (text : String) (limit : Backtrack.Limit) :
    r.allMatches text limit = r'.allMatches text limit

namespace Agrees

variable {r r' r'' : Regex}

theorem refl (r : Regex) : r.Agrees r := ⟨rfl, rfl, fun _ _ => rfl, fun _ _ _ => rfl, fun _ _ => rfl⟩

theorem symm (h : r.Agrees r') : r'.Agrees r where
  pattern := h.pattern.symm
  flags := h.flags.symm
  isMatch text limit := (h.isMatch text limit).symm
  nexts text calls limit := (h.nexts text calls limit).symm
  allMatches text limit := (h.allMatches text limit).symm

theorem trans (h : r.Agrees r') (h' : r'.Agrees r'') : r.Agrees r'' where
  pattern := h.pattern.trans h'.pattern
  flags := h.flags.trans h'.flags
  isMatch text limit := (h.isMatch text limit).trans (h'.isMatch text limit)
  nexts text calls limit := (h.nexts text calls limit).trans (h'.nexts text calls limit)
  allMatches text limit := (h.allMatches text limit).trans (h'.allMatches text limit)

/-- The first match is the same, too. -/
theorem find (h : r.Agrees r') (text : String) (limit : Backtrack.Limit) :
    r.find text limit = r'.find text limit := by
  unfold Regex.find
  rw [h.nexts text 1 limit]

/-- So are the texts of all matches. -/
theorem findAll (h : r.Agrees r') (text : String) (limit : Backtrack.Limit) :
    r.findAll text limit = r'.findAll text limit := by
  unfold Regex.findAll
  rw [h.allMatches text limit]

end Agrees

/-- The steps of an iteration do not ask for the engine. -/
theorem nexts_go_engine (r : Regex) (engine : Engine) (chars : List Char) (find : Nat → Finding)
    (calls : Nat) (it : Iteration) :
    nexts.go { r with engine } chars find calls it = nexts.go r chars find calls it := by
  induction calls generalizing it with
  | zero => rfl
  | succ calls ih =>
    unfold nexts.go
    simp only [ih]

/-- A regex reports the same under another engine's name. -/
theorem agrees_engine (r : Regex) (engine : Engine) : ({ r with engine } : Regex).Agrees r where
  pattern := rfl
  flags := rfl
  isMatch _ _ := rfl
  nexts text calls _ := nexts_go_engine r engine text.toList _ calls {}
  allMatches _ _ := rfl

end Regex

end MailPattern
