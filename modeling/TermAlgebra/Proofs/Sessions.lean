import Mathlib.Data.List.TakeWhile
import Mathlib.Tactic
import TermAlgebra.Proofs.Recovery

/-!
# Sessions line by line

A session that nothing breaks off is the sequence of its lines.  It reads its lines up to the first
one that asks for its end (`Session.attended`), and all that a line leaves to the next ones is
whether debug mode is on.  So what follows a line is what follows it in a session of that line
alone, and debug mode is switched by the lines that ask for it and by no others
(`Session.run_attended`).  The same is so of the text that is written, whatever the prompt is and
however long the answers take (`Session.text_run`).
-/

namespace TermAlgebra.Session

/-! ### The words of a session -/

/-- A line in lower case, without the blanks around it. -/
def word (line : String) : String :=
  String.ofList ((Text.trim line.toList).map Char.toLower)

/-- The request of a line depends on the line in lower case without blanks around it. -/
lemma ofLine_eq (line : String) : Request.ofLine line =
    if word line = "exit" then .exit else if word line = "debug" then .toggleDebug
    else if word line = "" then .nothing else .simplify line := rfl

/-- A line asks for the end if it is the word for that. -/
lemma ofLine_eq_exit_iff (line : String) :
    Request.ofLine line = .exit ↔ word line = "exit" := by
  rw [ofLine_eq]
  split_ifs <;> simp [*]

/-- The lines before the one that asks for the end are those before the word for that. -/
lemma asked_eq (lines : List String) :
    asked lines = lines.takeWhile fun line => word line ≠ "exit" := by
  unfold asked
  refine congrArg (List.takeWhile · lines) (funext fun line => ?_)
  rw [decide_eq_decide, not_iff_not]
  exact ofLine_eq_exit_iff line

/-- The lines that a session reads if nothing breaks it off: those before the first one that asks
for its end, and that one. -/
def attended (lines : List String) : List String :=
  lines.take ((lines.takeWhile fun line => word line ≠ "exit").length + 1)

/-- Whether debug mode is on after some lines: those that ask for it switch it, one after
another. -/
def flagAfter (debug : Bool) (lines : List String) : Bool :=
  debug ^^ (lines.countP fun line => word line = "debug").bodd

/-- Of lines that start with one that asks for the end, only that one is read. -/
lemma attended_cons_of_exit {line : String} (rest : List String) (h : word line = "exit") :
    attended (line :: rest) = [line] := by
  simp [attended, h]

/-- A line that does not ask for the end is read, and then the lines after it are. -/
lemma attended_cons {line : String} (rest : List String) (h : word line ≠ "exit") :
    attended (line :: rest) = line :: attended rest := by
  simp [attended, h]

/-- No lines leave debug mode as it is. -/
lemma flagAfter_nil (debug : Bool) : flagAfter debug [] = debug := by
  simp [flagAfter]

/-- Lines switch debug mode one after another. -/
lemma flagAfter_append (debug : Bool) (lines others : List String) :
    flagAfter debug (lines ++ others) = flagAfter (flagAfter debug lines) others := by
  rw [flagAfter, List.countP_append, Nat.bodd_add, ← Bool.xor_assoc]
  rfl

/-- The first of some lines switches debug mode, then the others do. -/
lemma flagAfter_cons (debug : Bool) (line : String) (rest : List String) :
    flagAfter debug (line :: rest) = flagAfter (flagAfter debug [line]) rest :=
  flagAfter_append debug [line] rest

/-- Only a line that asks for it switches debug mode. -/
lemma flagAfter_singleton (debug : Bool) (line : String) :
    flagAfter debug [line] = if word line = "debug" then !debug else debug := by
  unfold flagAfter
  split_ifs with h <;> simp [h]

/-! ### One line -/

/-- A line that does not ask for the end and does not break the session off is answered, whatever
comes after it, and the session goes on with debug mode switched if the line asks for that. -/
lemma resume_cons (debug : Bool) {line : String} (hexit : word line ≠ "exit")
    (hbreaking : breaking? line = none) :
    ∃ chunk events, ∀ rest, resume debug (line :: rest) =
      (resume (flagAfter debug [line]) rest).after chunk events := by
  rw [breaking?, ofLine_eq, if_neg hexit] at hbreaking
  simp only [resume, ofLine_eq, if_neg hexit]
  by_cases hdebug : word line = "debug"
  · simp only [flagAfter_singleton, if_pos hdebug]
    exact ⟨_, _, fun rest => rfl⟩
  rw [if_neg hdebug] at hbreaking
  simp only [flagAfter_singleton, if_neg hdebug]
  by_cases hblank : word line = ""
  · simp only [if_pos hblank]
    exact ⟨_, _, fun rest => rfl⟩
  rw [if_neg hblank] at hbreaking
  simp only [if_neg hblank]
  rcases outcome_answer debug line with ⟨⟨accepted, hok⟩, -⟩ | ⟨fault, -, hfailure⟩
  · rw [hok]
    exact ⟨_, _, fun rest => rfl⟩
  · exact absurd (hfailure.symm.trans hbreaking) (Option.some_ne_none fault)

/-- Nothing is answered from a line on that asks for the end. -/
lemma resume_cons_of_exit (debug : Bool) {line : String} (rest : List String)
    (h : word line = "exit") : resume debug (line :: rest) = ⟨[⟨[], false⟩], [], none, debug⟩ := by
  simp only [resume, ofLine_eq, if_pos h]

/-! ### Whole sessions -/

/-- Whether none of the lines before the one that asks for the end breaks a session off. -/
def Unbroken (lines : List String) : Prop :=
  ∀ line ∈ asked lines, breaking? line = none

/-- If lines that start with one that does not ask for the end do not break a session off, then that
one does not and those after it do not. -/
lemma Unbroken.of_cons {line : String} {rest : List String} (h : Unbroken (line :: rest))
    (hexit : word line ≠ "exit") : breaking? line = none ∧ Unbroken rest := by
  unfold Unbroken at h ⊢
  rw [asked_eq] at h ⊢
  rw [List.takeWhile_cons_of_pos (by simpa using hexit)] at h
  exact List.forall_mem_cons.1 h

/-- If lines do not break a session off, then the first of them do not. -/
lemma Unbroken.take {lines : List String} (h : Unbroken lines) (k : ℕ) :
    Unbroken (lines.take k) := by
  intro line hline
  rw [asked, ← List.take_takeWhile] at hline
  exact h line (List.mem_of_mem_take hline)

/-- What is printed after a line of a session is what is printed after it when a session resumes
with it alone and with the debug mode of that moment. -/
lemma chunks_resume {lines : List String} (h : Unbroken lines) {k : ℕ} {line : String}
    (hline : (attended lines)[k]? = some line) (debug : Bool) :
    ∃ chunk, (resume debug lines).chunks[k]? = some chunk ∧
      (resume (flagAfter debug (lines.take k)) [line]).chunks[0]? = some chunk := by
  induction lines generalizing debug k with
  | nil => exact nomatch hline
  | cons first rest ih =>
    by_cases hexit : word first = "exit"
    · rw [attended_cons_of_exit rest hexit, List.getElem?_singleton] at hline
      obtain ⟨rfl, hline⟩ := Option.ite_none_right_eq_some.1 hline
      obtain rfl := Option.some.inj hline
      rw [resume_cons_of_exit debug rest hexit, resume_cons_of_exit _ [] hexit]
      exact ⟨_, rfl, rfl⟩
    · obtain ⟨hfirst, hrest⟩ := h.of_cons hexit
      obtain ⟨chunk, events, hresume⟩ := resume_cons debug hexit hfirst
      rw [attended_cons rest hexit] at hline
      rw [hresume rest]
      cases k with
      | zero =>
        obtain rfl := Option.some.inj hline
        rw [List.take_zero, flagAfter_nil, hresume []]
        exact ⟨chunk, rfl, rfl⟩
      | succ k =>
        rw [List.take_succ_cons, flagAfter_cons debug first (rest.take k)]
        exact ih hrest hline (flagAfter debug [first])

/-- The lines that a session reads switch debug mode one after another. -/
lemma debug_resume {lines : List String} (h : Unbroken lines) (debug : Bool) :
    (resume debug lines).debug = flagAfter debug (attended lines) := by
  induction lines generalizing debug with
  | nil => exact (flagAfter_nil debug).symm
  | cons line rest ih =>
    by_cases hexit : word line = "exit"
    · have hdebug : word line ≠ "debug" := by
        rw [hexit]
        decide
      rw [resume_cons_of_exit debug rest hexit, attended_cons_of_exit rest hexit,
        flagAfter_singleton, if_neg hdebug]
    · obtain ⟨hline, hrest⟩ := h.of_cons hexit
      obtain ⟨chunk, events, hresume⟩ := resume_cons debug hexit hline
      rw [hresume rest, attended_cons rest hexit, flagAfter_cons debug line (attended rest)]
      exact ih hrest (flagAfter debug [line])

/-- A session is the same whatever comes after the line that asks for its end. -/
lemma resume_attended_append {lines : List String} (h : Unbroken lines)
    (hexit : ∃ line ∈ lines, word line = "exit") (debug : Bool) (other : List String) :
    resume debug (attended lines ++ other) = resume debug lines := by
  induction lines generalizing debug with
  | nil => exact absurd hexit (by simp)
  | cons line rest ih =>
    by_cases hline : word line = "exit"
    · rw [attended_cons_of_exit rest hline, resume_cons_of_exit debug rest hline]
      exact resume_cons_of_exit debug other hline
    · obtain ⟨hbreaking, hrest⟩ := h.of_cons hline
      obtain ⟨chunk, events, hresume⟩ := resume_cons debug hline hbreaking
      have hlater : ∃ line ∈ rest, word line = "exit" := by
        simpa [hline] using hexit
      rw [attended_cons rest hline, List.cons_append, hresume, hresume, ih hrest hlater]

/-! ### The text of a session -/

/-- The text that is written in a session, given how long each of its answers takes. -/
def Transcript.text (times : ℕ → String) (prompt : String) (t : Transcript) : String :=
  String.join (t.chunks.mapIdx fun k chunk => chunk.render (times k) prompt)

/-- The text of a chunk stands before what is written after it. -/
lemma text_after (times : ℕ → String) (prompt : String) (chunk : Chunk) (events : List Log.Event)
    (t : Transcript) : (t.after chunk events).text times prompt =
      chunk.render (times 0) prompt ++ t.text (fun k => times (k + 1)) prompt := by
  rw [Transcript.text, Transcript.after, List.mapIdx_cons, String.join_cons]
  rfl

/-- Nothing is written after the last line. -/
lemma text_resume_nil (times : ℕ → String) (prompt : String) (debug : Bool) :
    (resume debug []).text times prompt = "" := rfl

/-- What is written from the first of some lines on is what is written for each of them alone, with
the debug mode of that moment. -/
lemma text_resume {lines : List String} (h : Unbroken lines) (debug : Bool) (times : ℕ → String)
    (prompt : String) : (resume debug lines).text times prompt =
      String.join ((attended lines).mapIdx fun k line =>
        (resume (flagAfter debug (lines.take k)) [line]).text (fun _ => times k) prompt) := by
  induction lines generalizing debug times with
  | nil => rfl
  | cons line rest ih =>
    by_cases hexit : word line = "exit"
    · rw [attended_cons_of_exit rest hexit, List.mapIdx_singleton,
        resume_cons_of_exit debug rest hexit, resume_cons_of_exit _ [] hexit]
      rfl
    · obtain ⟨hline, hrest⟩ := h.of_cons hexit
      obtain ⟨chunk, events, hresume⟩ := resume_cons debug hexit hline
      have hflag : ∀ k, flagAfter debug ((line :: rest).take (k + 1)) =
          flagAfter (flagAfter debug [line]) (rest.take k) := fun k =>
        flagAfter_cons debug line (rest.take k)
      rw [hresume rest, text_after, ih hrest, attended_cons rest hexit, List.mapIdx_cons,
        String.join_cons, List.take_zero, flagAfter_nil, hresume [], text_after, text_resume_nil,
        String.append_empty]
      simp only [hflag]

/-- Of the first lines, those are read that are among the first ones read. -/
lemma attended_take (lines : List String) (k : ℕ) :
    attended (lines.take k) = (attended lines).take k := by
  induction lines generalizing k with
  | nil => simp [attended]
  | cons line rest ih =>
    cases k with
    | zero => rfl
    | succ k =>
      rw [List.take_succ_cons]
      by_cases hexit : word line = "exit"
      · rw [attended_cons_of_exit _ hexit, attended_cons_of_exit _ hexit]
        simp
      · rw [attended_cons _ hexit, attended_cons _ hexit, List.take_succ_cons, ih]

/-- After some of the lines that a session reads, debug mode is as these lines have left it. -/
lemma debug_resume_take {lines : List String} (h : Unbroken lines) (debug : Bool) {k : ℕ}
    (hk : k ≤ (attended lines).length) :
    (resume debug (lines.take k)).debug = flagAfter debug (lines.take k) := by
  have hread : (attended lines).take k = lines.take k := by
    rw [attended, List.take_take, Nat.min_eq_left]
    exact hk.trans (List.length_take_le _ lines)
  rw [debug_resume (h.take k) debug, attended_take, hread]

/-- What a session that nothing breaks off writes is its opening and then, for each line that it
reads, what a session resumes with for that line alone, given the debug mode that the lines before
have left.  This is so whatever the prompt is and however long the answers take. -/
theorem text_run {debug : Bool} {lines : List String} (h : (run debug lines).fault = none)
    (times : ℕ → String) (prompt : String) : (run debug lines).text times prompt =
      (Chunk.mk [.text ""] true).render (times 0) prompt ++
        String.join ((attended lines).mapIdx fun k line =>
          (resume (flagAfter debug (lines.take k)) [line]).text (fun _ => times (k + 1))
            prompt) := by
  have hunbroken : Unbroken lines :=
    List.findSome?_eq_none_iff.1 ((resume_eq debug lines).1.symm.trans h)
  rw [run, text_after, text_resume hunbroken]

/-- What a session prints follows its opening. -/
lemma getElem?_chunks_run (debug : Bool) (lines : List String) (k : ℕ) :
    (run debug lines).chunks[k + 1]? = (resume debug lines).chunks[k]? :=
  List.getElem?_cons_succ

/-- A session that nothing breaks off is the sequence of its lines.  It tries to read one line more
than there are before the first one that asks for its end, and what comes after that one is not
read.  What it prints after a line is what a session of that line alone prints after it, given the
debug mode that the lines before have left.  Only lines that ask for it switch debug mode, each of
them does, and at the end it is as all lines that were read have left it. -/
theorem run_attended (debug : Bool) (lines : List String) (h : (run debug lines).fault = none) :
    (run debug lines).chunks.length =
        (lines.takeWhile fun line => word line ≠ "exit").length + 2 ∧
      ((∃ line ∈ lines, word line = "exit") →
        ∀ other, run debug (attended lines ++ other) = run debug lines) ∧
      (∀ k line, (attended lines)[k]? = some line →
        (run debug (lines.take k)).debug = flagAfter debug (lines.take k) ∧
          (run debug (lines.take (k + 1))).debug = (if word line = "debug" then
            !flagAfter debug (lines.take k) else flagAfter debug (lines.take k)) ∧
          ∃ chunk, (run debug lines).chunks[k + 1]? = some chunk ∧
            (run (flagAfter debug (lines.take k)) [line]).chunks[1]? = some chunk) ∧
      (run debug lines).debug = flagAfter debug (attended lines) := by
  obtain ⟨hfault, hlength⟩ := resume_eq debug lines
  have hunbroken : Unbroken lines := List.findSome?_eq_none_iff.1 (hfault.symm.trans h)
  refine ⟨?_, fun hexit other => ?_, fun k line hline => ⟨?_, ?_, ?_⟩,
    debug_resume hunbroken debug⟩
  · have hall : (asked lines).takeWhile (fun line => (breaking? line).isNone) = asked lines :=
      List.takeWhile_eq_self_iff.2 fun line hline => by
        rw [hunbroken line hline]
        rfl
    rw [hall, asked_eq] at hlength
    exact congrArg (· + 1) hlength
  · exact congrArg (Transcript.after ⟨[.text ""], true⟩ [])
      (resume_attended_append hunbroken hexit debug other)
  · have hk := (List.getElem?_eq_some_iff.1 hline).1
    exact debug_resume_take hunbroken debug hk.le
  · obtain ⟨hk, -⟩ := List.getElem?_eq_some_iff.1 hline
    have hread : lines[k]? = some line := by
      rw [attended, List.getElem?_take] at hline
      exact (Option.ite_none_right_eq_some.1 hline).2
    have hnext : lines.take (k + 1) = lines.take k ++ [line] := by
      rw [List.take_add_one, hread]
      rfl
    have hdebug := debug_resume_take hunbroken debug (Nat.succ_le_of_lt hk)
    rw [← flagAfter_singleton, ← flagAfter_append, ← hnext]
    exact hdebug
  · obtain ⟨chunk, hsession, hfresh⟩ := chunks_resume hunbroken hline debug
    exact ⟨chunk, (getElem?_chunks_run debug lines k).trans hsession,
      (getElem?_chunks_run _ [line] 0).trans hfresh⟩

/-- After the word for it an expression is answered as in a session that starts in debug mode, and
lines that are refused or blank leave debug mode on. -/
theorem run_attended_switched :
    (run false ["debug", "x + x", "(1", "", " Exit", "debug"]).fault = none ∧
      (∃ chunk,
        (run false ["debug", "x + x", "(1", "", " Exit", "debug"]).chunks[2]? = some chunk ∧
          (run true ["x + x"]).chunks[1]? = some chunk) ∧
      (run false ["debug", "x + x", "(1", "", " Exit", "debug"]).debug = true := by
  have h : (run false ["debug", "x + x", "(1", "", " Exit", "debug"]).fault = none := by
    decide +kernel
  have hread : (attended ["debug", "x + x", "(1", "", " Exit", "debug"])[1]? = some "x + x" := by
    decide +kernel
  have hflag : flagAfter false (["debug", "x + x", "(1", "", " Exit", "debug"].take 1) = true := by
    decide +kernel
  have hlast :
      flagAfter false (attended ["debug", "x + x", "(1", "", " Exit", "debug"]) = true := by
    decide +kernel
  obtain ⟨-, -, hlines, hdebug⟩ := run_attended false _ h
  obtain ⟨-, -, chunk, hsession, hline⟩ := hlines 1 "x + x" hread
  rw [hflag] at hline
  exact ⟨h, ⟨chunk, hsession, hline⟩, hdebug.trans hlast⟩

end TermAlgebra.Session
