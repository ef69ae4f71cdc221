import Mathlib.Data.List.Basic

set_option autoImplicit false

/-! # Reading a stream line by line

A reader that cuts a stream after every delimiter, as `bufio.Reader.ReadBytes` does. Lines keep their
delimiter, and what follows the last one is not a line yet. If no delimiter stands inside the texts that
are written, the lines that are read are these texts (`lines_written`). -/

section Lines

variable {α : Type} [DecidableEq α] (delim : α)

/-- The lines of a stream, after the beginning `acc` of the first one has been read. -/
def linesFrom : List α → List α → List (List α)
  | _, [] => []
  | acc, c :: cs =>
    if c = delim then (acc ++ [c]) :: linesFrom [] cs else linesFrom (acc ++ [c]) cs

def lines (stream : List α) : List (List α) := linesFrom delim [] stream

/-- What is on the stream when every text is written with a delimiter at its end. -/
def written (texts : List (List α)) : List α := texts.flatMap fun text => text ++ [delim]

variable {delim}

theorem linesFrom_unfinished {rest : List α} (h : delim ∉ rest) (acc : List α) :
    linesFrom delim acc rest = [] := by
  induction rest generalizing acc with
  | nil => rfl
  | cons c cs ih =>
    obtain ⟨hc, hcs⟩ := not_or.1 (mt List.mem_cons.2 h)
    rw [linesFrom, if_neg (Ne.symm hc)]
    exact ih hcs _

/-- One text is read to its delimiter. -/
theorem linesFrom_append {text : List α} (h : delim ∉ text) (acc rest : List α) :
    linesFrom delim acc (text ++ delim :: rest) = (acc ++ text ++ [delim]) :: lines delim rest := by
  induction text generalizing acc with
  | nil => rw [List.nil_append, linesFrom, if_pos rfl, List.append_nil]; rfl
  | cons c cs ih =>
    obtain ⟨hc, hcs⟩ := not_or.1 (mt List.mem_cons.2 h)
    rw [List.cons_append, linesFrom, if_neg (Ne.symm hc), ih hcs, List.append_assoc acc,
      List.singleton_append]

/-- **Lines are read as they were written**, and an unfinished one at the end is not read. -/
theorem lines_written {texts : List (List α)} (h : ∀ text ∈ texts, delim ∉ text) {rest : List α}
    (hrest : delim ∉ rest) :
    lines delim (written delim texts ++ rest) = texts.map fun text => text ++ [delim] := by
  induction texts with
  | nil => exact linesFrom_unfinished hrest []
  | cons text texts ih =>
    have hcons : written delim (text :: texts) ++ rest =
        text ++ delim :: (written delim texts ++ rest) := by
      simp [written]
    rw [hcons, lines, linesFrom_append (h text List.mem_cons_self), List.nil_append,
      ih fun text' h' => h text' (List.mem_cons_of_mem _ h'), List.map_cons]

end Lines
