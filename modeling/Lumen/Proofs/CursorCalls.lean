import Lumen.Proofs.CursorScan

/-!
# Calls of a cursor

Whoever scans holds a cursor and asks it for characters, in whatever order.  A
call moves the cursor over the character in front of it or not at all.  So a
cursor that starts within its source stays there and never moves back, its line
tells the line breaks that it passed, and what it shows is what it reads next.
-/

namespace Lumen

namespace Cursor

inductive Call where
  | next
  | peek (offset : Int)
  | accept (expected : String)
  | atEnd
  deriving DecidableEq, Repr

inductive Answer where
  | read (c : Char)
  | refused (fault : Fault)
  | shown (c : Option Char)
  | accepted (found : Bool)
  | ended (atEnd : Bool)
  deriving DecidableEq, Repr

/-- The answer of a call and the cursor behind it. -/
def perform (cursor : Cursor) : Call → Answer × Cursor
  | .next =>
      match cursor.next with
      | .ok (c, moved) => (.read c, moved)
      | .error fault => (.refused fault, cursor)
  | .peek offset => (.shown (cursor.peek offset), cursor)
  | .accept expected =>
      let (found, moved) := cursor.accept expected
      (.accepted found, moved)
  | .atEnd => (.ended cursor.atEnd, cursor)

def behind (cursor : Cursor) (calls : List Call) : Cursor :=
  calls.foldl (fun cursor call => (cursor.perform call).2) cursor

/-! ## One call -/

section Between

variable (before after : List Char) (line : Int)

theorem next_between_nil :
    (between before [] line).next = .error (.pastEnd before.length line) := by
  rw [next, if_pos (by simp)]
  rfl

theorem position_between_concat (c : Char) :
    (between (before ++ [c]) after line).position = (before.length : Int) + 1 := by
  simp [between]

/-- A cursor accepts the text of the character in front of it and no other. -/
theorem accept_between (c : Char) (expected : String) :
    (between before (c :: after) line).accept expected =
      if expected.toList = [c] then
        (true, between (before ++ [c]) after (line + Scan.lineCount [c]))
      else (false, between before (c :: after) line) := by
  simp [accept]

theorem accept_between_nil (expected : String) :
    (between before [] line).accept expected = (false, between before [] line) := by
  simp [accept]

/-- A call moves a cursor over the character in front of it or not at all. -/
theorem perform_between (call : Call) :
    ((between before after line).perform call).2 = between before after line ∨
      ∃ c rest, after = c :: rest ∧
        ((between before after line).perform call).2 =
          between (before ++ [c]) rest (line + Scan.lineCount [c]) := by
  cases call with
  | next =>
      cases after with
      | nil => exact .inl (by rw [perform, next_between_nil])
      | cons c rest => exact .inr ⟨c, rest, rfl, by rw [perform, next_between]⟩
  | peek offset => exact .inl rfl
  | accept expected =>
      cases after with
      | nil => exact .inl (by rw [perform, accept_between_nil])
      | cons c rest =>
          by_cases hfront : expected.toList = [c]
          · exact .inr ⟨c, rest, rfl, by rw [perform, accept_between, if_pos hfront]⟩
          · exact .inl (by rw [perform, accept_between, if_neg hfront])
  | atEnd => exact .inl rfl

end Between

/-! ## Sequences of calls -/

/-- Calls move a cursor over a part of what is in front of it. -/
theorem behind_between (before after : List Char) (line : Int) (calls : List Call) :
    ∃ taken rest, after = taken ++ rest ∧
      (between before after line).behind calls =
        between (before ++ taken) rest (line + Scan.lineCount taken) := by
  induction calls generalizing before after line with
  | nil => exact ⟨[], after, rfl, by simp [behind, Scan.lineCount]⟩
  | cons call calls ih =>
      rw [behind, List.foldl_cons]
      rcases perform_between before after line call with hstays | ⟨c, rest, rfl, hmoves⟩
      · rw [hstays]
        exact ih before after line
      · -- The later calls start behind the character, whose line break they do not count.
        obtain ⟨taken, rest, rfl, hbehind⟩ := ih (before ++ [c]) rest (line + Scan.lineCount [c])
        refine ⟨c :: taken, rest, rfl, ?_⟩
        rw [hmoves]
        refine hbehind.trans ?_
        rw [line_add, List.append_assoc, List.singleton_append]

theorem behind_append (cursor : Cursor) (calls more : List Call) :
    cursor.behind (calls ++ more) = (cursor.behind calls).behind more :=
  List.foldl_append

/-- A cursor within its source stands between two parts of it. -/
theorem exists_between {cursor : Cursor} (hstart : 0 ≤ cursor.position)
    (hend : cursor.position ≤ cursor.source.length) :
    ∃ before after line, cursor = between before after line := by
  obtain ⟨source, position, line⟩ := cursor
  obtain ⟨index, rfl⟩ := Int.eq_ofNat_of_zero_le hstart
  have hindex : index ≤ source.length := Int.ofNat_le.mp hend
  refine ⟨source.take index, source.drop index, line, ?_⟩
  rw [between, List.take_append_drop, List.length_take_of_le hindex]

/-- A cursor further on in the source, by as many lines as there are line breaks
on the way. -/
structure Reaches (start cursor : Cursor) : Prop where
  source_eq : cursor.source = start.source
  start_le : start.position ≤ cursor.position
  le_length : cursor.position ≤ start.source.length
  line_eq : cursor.line = start.line + (start.lexeme cursor).count '\n'

/-- What a cursor shows is what it reads and accepts, and looking moves nothing. -/
structure ReadsAhead (cursor : Cursor) : Prop where
  next_of_some : ∀ c, cursor.peek 0 = some c → ∃ moved,
    cursor.perform .next = (.read c, moved) ∧ moved.position = cursor.position + 1
  next_of_none : cursor.peek 0 = none →
    cursor.perform .next = (.refused (.pastEnd cursor.position cursor.line), cursor)
  peek_eq_none_iff : cursor.peek 0 = none ↔ cursor.atEnd = true
  accept_of_shown : ∀ c expected, cursor.peek 0 = some c → expected.toList = [c] → ∃ moved,
    cursor.perform (.accept expected) = (.accepted true, moved) ∧
      moved.position = cursor.position + 1
  accept_of_other : ∀ expected, (∀ c, cursor.peek 0 = some c → expected.toList ≠ [c]) →
    cursor.perform (.accept expected) = (.accepted false, cursor)
  peek_stays : ∀ offset, cursor.perform (.peek offset) = (.shown (cursor.peek offset), cursor)
  atEnd_stays : cursor.perform .atEnd = (.ended cursor.atEnd, cursor)

/-- Calls move a cursor forward over a part of the source, and count its
lines. -/
theorem reaches_behind {start : Cursor} (hstart : 0 ≤ start.position)
    (hend : start.position ≤ start.source.length) (calls : List Call) :
    start.Reaches (start.behind calls) := by
  obtain ⟨before, after, line, rfl⟩ := exists_between hstart hend
  obtain ⟨taken, rest, rfl, hbehind⟩ := behind_between before after line calls
  rw [hbehind]
  refine ⟨?_, ?_, ?_, ?_⟩
  · exact List.append_assoc before taken rest
  · simp only [between, List.length_append]
    omega
  · simp only [between, List.length_append]
    omega
  · rw [lexeme_between]
    rfl

section Between

variable (before : List Char) (line : Int)

/-- Behind the last character there is nothing to see, to read or to accept. -/
theorem readsAhead_nil : (between before [] line).ReadsAhead where
  next_of_some := by simp
  next_of_none := by
    intro _
    rw [perform, next_between_nil]
    rfl
  peek_eq_none_iff := by simp
  accept_of_shown := by simp
  accept_of_other := by
    intro expected _
    rw [perform, accept_between_nil]
  peek_stays := fun _ => rfl
  atEnd_stays := rfl

/-- The character in front is the one that is shown, read and accepted. -/
theorem readsAhead_cons (first : Char) (rest : List Char) :
    (between before (first :: rest) line).ReadsAhead where
  next_of_some := by
    intro c hshown
    obtain rfl : first = c := by simpa using hshown
    exact ⟨_, by rw [perform, next_between], position_between_concat ..⟩
  next_of_none := by simp
  peek_eq_none_iff := by simp
  accept_of_shown := by
    intro c expected hshown hexpected
    obtain rfl : first = c := by simpa using hshown
    exact ⟨_, by rw [perform, accept_between, if_pos hexpected], position_between_concat ..⟩
  accept_of_other := by
    intro expected hother
    rw [perform, accept_between, if_neg (hother first (by simp))]
  peek_stays := fun _ => rfl
  atEnd_stays := rfl

end Between

theorem readsAhead_of_within {cursor : Cursor} (hstart : 0 ≤ cursor.position)
    (hend : cursor.position ≤ cursor.source.length) : cursor.ReadsAhead := by
  obtain ⟨before, after, line, rfl⟩ := exists_between hstart hend
  cases after with
  | nil => exact readsAhead_nil before line
  | cons first rest => exact readsAhead_cons before line first rest

/-- Behind any sequence of calls a cursor that started within its source is within
it and not before its start, on the line that the line breaks on the way say, and
further calls only move it further on.  Everywhere it reads and accepts what it
shows, and it refuses to read, and stays where it is, where it shows nothing and
all is read. -/
theorem calls_keep_place (start : Cursor) (hstart : 0 ≤ start.position)
    (hend : start.position ≤ start.source.length) (calls : List Call) :
    start.Reaches (start.behind calls) ∧
      (∀ more, (start.behind calls).Reaches (start.behind (calls ++ more))) ∧
      (start.behind calls).ReadsAhead := by
  have hreaches := reaches_behind hstart hend calls
  have hstart' : 0 ≤ (start.behind calls).position := hstart.trans hreaches.start_le
  have hend' : (start.behind calls).position ≤ (start.behind calls).source.length := by
    rw [hreaches.source_eq]
    exact hreaches.le_length
  refine ⟨hreaches, ?_, readsAhead_of_within hstart' hend'⟩
  intro more
  rw [behind_append]
  exact reaches_behind hstart' hend' more

/-- Two characters are no text to accept, and behind the last character the cursor
refuses to read and stays. -/
theorem calls_keep_place_end :
    let start : Cursor := ⟨"a\nb".toList, 1, 7⟩
    let calls : List Call := [.accept "\nb", .accept "\n", .next, .next]
    (0 ≤ start.position ∧ start.position ≤ start.source.length) ∧
      start.Reaches ⟨"a\nb".toList, 3, 8⟩ ∧
      (start.behind calls).perform .next = (.refused (.pastEnd 3 8), start.behind calls) := by
  intro start calls
  have hwithin : 0 ≤ start.position ∧ start.position ≤ start.source.length := by decide
  have hbehind : start.behind calls = ⟨"a\nb".toList, 3, 8⟩ := by decide
  obtain ⟨hreaches, -, hahead⟩ := calls_keep_place start hwithin.1 hwithin.2 calls
  rw [hbehind] at hreaches hahead ⊢
  exact ⟨hwithin, hreaches, hahead.next_of_none (by decide)⟩

end Cursor

end Lumen
