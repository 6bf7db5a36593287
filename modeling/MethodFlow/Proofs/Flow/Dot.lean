import MethodFlow.Flow.Dot
import MethodFlow.Proofs.Tree.Texts
import Mathlib.Data.List.Basic

/-!
The literals of a graph in the DOT language. The passes that write a label text write each of its
characters, whatever the others are. What they write is undone by reading a backslash together with
the character behind it, and neither a quote nor a line break is left that would end the label
early. Whatever the title and the statements hold, a reader finds the title, the font and the label
of each block, and each of them ends where it is meant to.
-/

namespace MethodFlow

namespace Text

/-- The character that is written as `c` behind a backslash. -/
def unescapeChar (c : Char) : Option Char :=
  if c = 'n' then some '\n' else if c = '\\' ∨ c = '"' ∨ c = '<' ∨ c = '>' then some c else none

/-- The text that a label was written for. A backslash is read together with the character behind
it. -/
def unescapeLabel : List Char → Option (List Char)
  | [] => some []
  | '\\' :: [] => none
  | '\\' :: c :: rest => (unescapeChar c).bind fun d => (unescapeLabel rest).map (d :: ·)
  | c :: rest => (unescapeLabel rest).map (c :: ·)

/-- The literals of a file, read from outside a literal, or from inside one behind what has been
`read` of it. A backslash protects the character behind it. No line ends inside a literal, and no
file does. -/
def literals : Option (List Char) → List Char → Option (List (List Char))
  | none, [] => some []
  | some _, [] => none
  | none, c :: rest => if c = '"' then literals (some []) rest else literals none rest
  | some read, '\\' :: c :: rest =>
    if c = '\n' then none else literals (some (read ++ ['\\', c])) rest
  | some read, c :: rest =>
    if c = '"' then (literals none rest).map (read :: ·)
    else if c = '\n' then none
    else literals (some (read ++ [c])) rest

def labelMarks : List Char := ['\\', '"', '\n', '\r', '<', '>']

theorem escapeLabelChar_of_not_mem {c : Char} (h : c ∉ labelMarks) : escapeLabelChar c = [c] := by
  simp only [labelMarks, List.mem_cons, List.not_mem_nil, or_false, not_or] at h
  simp [escapeLabelChar, h]

/-- A mark is written with a backslash in front of a character that stands for it, or not at all. -/
theorem escapeLabelChar_of_mem {c : Char} (h : c ∈ labelMarks) :
    (∃ d, escapeLabelChar c = ['\\', d] ∧ unescapeChar d = some c ∧ d ≠ '\n' ∧ c ≠ '\r') ∨
      (escapeLabelChar c = [] ∧ c = '\r') := by
  simp only [labelMarks, List.mem_cons, List.not_mem_nil, or_false] at h
  rcases h with rfl | rfl | rfl | rfl | rfl | rfl
  · exact .inl ⟨'\\', by decide⟩
  · exact .inl ⟨'"', by decide⟩
  · exact .inl ⟨'n', by decide⟩
  · exact .inr (by decide)
  · exact .inl ⟨'<', by decide⟩
  · exact .inl ⟨'>', by decide⟩

/-- The passes over a text come to the written forms of its characters, one after another. -/
theorem toList_escapeLabel (text : String) :
    (escapeLabel text).toList = text.toList.flatMap escapeLabelChar := by
  simp only [escapeLabel, toList_replaceEach, List.flatMap_assoc]
  refine List.flatMap_congr fun c _ => ?_
  by_cases hc : c ∈ labelMarks
  · simp only [labelMarks, List.mem_cons, List.not_mem_nil, or_false] at hc
    rcases hc with rfl | rfl | rfl | rfl | rfl | rfl <;> decide
  · rw [escapeLabelChar_of_not_mem hc]
    simp only [labelMarks, List.mem_cons, List.not_mem_nil, or_false, not_or] at hc
    simp [hc]

theorem unescapeLabel_cons {c : Char} (hc : c ≠ '\\') (rest : List Char) :
    unescapeLabel (c :: rest) = (unescapeLabel rest).map (c :: ·) := by
  rw [unescapeLabel]
  · rintro rfl
    exact absurd rfl hc
  · rintro _ _ rfl
    exact absurd rfl hc

/-- Reading back gives the text without its carriage returns. -/
theorem unescapeLabel_flatMap (text : List Char) :
    unescapeLabel (text.flatMap escapeLabelChar) = some (text.filter (· ≠ '\r')) := by
  induction text with
  | nil => rfl
  | cons c rest ih =>
    rw [List.flatMap_cons]
    by_cases hc : c ∈ labelMarks
    · rcases escapeLabelChar_of_mem hc with ⟨d, hd, hback, -, hne⟩ | ⟨hd, rfl⟩
      · rw [hd, List.cons_append, List.cons_append, List.nil_append, unescapeLabel, hback, ih]
        simp [hne]
      · rw [hd, List.nil_append, ih]
        rfl
    · rw [escapeLabelChar_of_not_mem hc, List.singleton_append]
      simp only [labelMarks, List.mem_cons, List.not_mem_nil, or_false, not_or] at hc
      rw [unescapeLabel_cons hc.1, ih]
      simp [hc.2.2.2.1]

/-- Characters that a reader inside a literal passes, so that the literal goes on behind them. -/
def GoesOn (cs : List Char) : Prop :=
  ∀ read rest, literals (some read) (cs ++ rest) = literals (some (read ++ cs)) rest

namespace GoesOn

theorem nil : GoesOn [] := fun read rest => by simp

theorem append {cs ds : List Char} (hc : GoesOn cs) (hd : GoesOn ds) : GoesOn (cs ++ ds) :=
  fun read rest => by rw [List.append_assoc, hc, hd, List.append_assoc]

theorem flatMap {α : Type} {xs : List α} {f : α → List Char} (h : ∀ x ∈ xs, GoesOn (f x)) :
    GoesOn (xs.flatMap f) := by
  induction xs with
  | nil => exact .nil
  | cons x rest ih =>
    rw [List.flatMap_cons]
    exact (h x (by simp)).append (ih fun y hy => h y (by simp [hy]))

/-- A protected character does not end a literal. -/
theorem escaped {c : Char} (hc : c ≠ '\n') : GoesOn ['\\', c] := fun read rest => by
  rw [List.cons_append, List.cons_append, List.nil_append, literals, if_neg hc]

theorem plain {c : Char} (hslash : c ≠ '\\') (hquote : c ≠ '"') (hbreak : c ≠ '\n') : GoesOn [c] :=
  fun read rest => by
    rw [List.singleton_append, literals, if_neg hquote, if_neg hbreak]
    rintro _ _ rfl
    exact absurd rfl hslash

theorem of_plain {cs : List Char} (h : ∀ c ∈ cs, c ≠ '\\' ∧ c ≠ '"' ∧ c ≠ '\n') : GoesOn cs := by
  rw [← List.flatMap_singleton' cs]
  exact flatMap fun c hc => plain (h c hc).1 (h c hc).2.1 (h c hc).2.2

/-- No text ends the literal that it is written into. -/
theorem escapeLabel (text : String) : GoesOn (escapeLabel text).toList := by
  rw [toList_escapeLabel]
  refine flatMap fun c _ => ?_
  by_cases hc : c ∈ labelMarks
  · rcases escapeLabelChar_of_mem hc with ⟨d, hd, -, hne, -⟩ | ⟨hd, -⟩
    · rw [hd]
      exact escaped hne
    · rw [hd]
      exact nil
  · rw [escapeLabelChar_of_not_mem hc]
    simp only [labelMarks, List.mem_cons, List.not_mem_nil, or_false, not_or] at hc
    exact plain hc.1 hc.2.1 hc.2.2.1

end GoesOn

theorem literals_append_of_not_mem {cs : List Char} (h : '"' ∉ cs) (rest : List Char) :
    literals none (cs ++ rest) = literals none rest := by
  induction cs with
  | nil => rfl
  | cons c cs ih =>
    rw [List.mem_cons, not_or] at h
    rw [List.cons_append, literals, if_neg (Ne.symm h.1), ih h.2]

theorem literals_quoted {cs : List Char} (h : GoesOn cs) (rest : List Char) :
    literals none ('"' :: (cs ++ '"' :: rest)) = (literals none rest).map (cs :: ·) := by
  rw [literals, if_pos rfl, h, List.nil_append, literals, if_pos rfl]
  rintro _ _ ⟨⟩

/-- A part of a file that begins and ends outside literals, with the literals in it. -/
def Reads (part : String) (found : List (List Char)) : Prop :=
  ∀ rest, literals none (part.toList ++ rest) = (literals none rest).map (found ++ ·)

namespace Reads

variable {first last body : String} {found more : List (List Char)}

theorem empty : Reads "" [] := fun rest => by simp

theorem append (hfirst : Reads first found) (hlast : Reads last more) :
    Reads (first ++ last) (found ++ more) := fun rest => by
  rw [String.toList_append, List.append_assoc, hfirst, hlast, Option.map_map]
  congr 1
  funext found'
  exact (List.append_assoc found more found').symm

theorem behind (hfirst : '"' ∉ first.toList) (hlast : Reads last found) :
    Reads (first ++ last) found :=
  fun rest => by rw [String.toList_append, List.append_assoc,
    literals_append_of_not_mem hfirst, hlast]

theorem before (hfirst : Reads first found) (hlast : '"' ∉ last.toList) :
    Reads (first ++ last) found :=
  fun rest => by rw [String.toList_append, List.append_assoc, hfirst,
    literals_append_of_not_mem hlast]

theorem line (hfirst : '"' ∉ first.toList) (hbody : GoesOn body.toList)
    (hlast : '"' ∉ last.toList) :
    Reads (first ++ "\"" ++ body ++ "\"" ++ last) [body.toList] := fun rest => by
  simp only [String.toList_append, List.append_assoc, literals_append_of_not_mem hfirst]
  show literals none ('"' :: (body.toList ++ '"' :: (last.toList ++ rest))) = _
  rw [literals_quoted hbody, literals_append_of_not_mem hlast]
  rfl

theorem join {α : Type} {xs : List α} {f : α → String} {found : α → List Char}
    (h : ∀ x ∈ xs, Reads (f x) [found x]) : Reads (String.join (xs.map f)) (xs.map found) := by
  induction xs with
  | nil => exact empty
  | cons x rest ih =>
    rw [List.map_cons, String.join_cons, List.map_cons]
    exact (h x (by simp)).append (ih fun y hy => h y (by simp [hy]))

theorem literals_eq (h : Reads body found) : literals none body.toList = some found := by
  have hend := h []
  rwa [List.append_nil, literals, Option.map_some, List.append_nil] at hend

end Reads

end Text

namespace FlowGraph

open Text

theorem goesOn_repr (n : Nat) : GoesOn n.repr.toList :=
  .of_plain fun c hc => by
    have hdigit := isDigit_of_mem_repr hc
    refine ⟨?_, ?_, ?_⟩ <;> rintro rfl <;> exact absurd hdigit (by decide)

theorem toList_toString (b : BlockId) : (toString b).toList = 'B' :: b.index.repr.toList := by
  show ("B" ++ b.index.repr).toList = _
  rw [String.toList_append]
  rfl

theorem not_mem_toString (b : BlockId) : '"' ∉ (toString b).toList := by
  rw [toList_toString, List.mem_cons, not_or]
  exact ⟨by decide, fun h => absurd (isDigit_of_mem_repr h) (by decide)⟩

variable (f : FlowGraph) (b : BlockId)

theorem goesOn_headline : GoesOn (f.headline b).toList := by
  have hentry : GoesOn (if b = entry then " (entry)" else "").toList := by
    split <;> exact .of_plain (by simp)
  have hblock : GoesOn (toString b).toList := by
    rw [toList_toString]
    show GoesOn (['B'] ++ _)
    exact (GoesOn.of_plain (by simp)).append (goesOn_repr b.index)
  show GoesOn (toString b ++ " @" ++ Nat.repr _ ++ _).toList
  simp only [String.toList_append]
  exact ((hblock.append (.of_plain (by simp))).append (goesOn_repr _)).append hentry

/-- No statement ends the label that it is shown in. -/
theorem goesOn_boxLabel : GoesOn (f.boxLabel b).toList := by
  have hend : GoesOn lineEnd.toList := .escaped (by decide)
  have hlines : GoesOn (String.join ((f.statements b).map fun n =>
      escapeLabel (f.tree.text n) ++ lineEnd)).toList := by
    rw [String.toList_join, List.flatMap_map]
    refine .flatMap fun n _ => ?_
    rw [String.toList_append]
    exact (GoesOn.escapeLabel _).append hend
  simp only [boxLabel, String.toList_append]
  exact ((f.goesOn_headline b).append hend).append hlines

theorem reads_boxLine : Reads (f.boxLine b) [(f.boxLabel b).toList] := by
  have hfirst : '"' ∉ ("    " ++ toString b ++ " [label=").toList := by
    simp [String.toList_append, not_mem_toString]
  have hlast : '"' ∉ (f.boxStyle b ++ "];\n").toList := by
    unfold boxStyle
    split_ifs <;> decide
  have hquote : " [label=" ++ "\"" = " [label=\"" := by decide
  have hline : f.boxLine b = "    " ++ toString b ++ " [label=" ++ "\"" ++ f.boxLabel b ++ "\"" ++
      (f.boxStyle b ++ "];\n") := by
    show "    " ++ toString b ++ " [label=\"" ++ f.boxLabel b ++ "\"" ++ f.boxStyle b ++ "];\n" = _
    rw [← hquote]
    simp only [String.append_assoc]
  rw [hline]
  exact .line hfirst (f.goesOn_boxLabel b) hlast

theorem reads_titleLine (title : Option String) : Reads (titleLine title)
    (title.toList.map fun text => ("CFG: " ++ escapeLabel text).toList) := by
  cases title with
  | none => exact .empty
  | some text =>
    have hbody : GoesOn ("CFG: " ++ escapeLabel text).toList := by
      rw [String.toList_append]
      exact (GoesOn.of_plain (by simp)).append (.escapeLabel text)
    have hfirst : "    label=" ++ ("\"" ++ "CFG: ") = "    label=\"CFG: " := by decide
    have hlast : "\"" ++ ";\n" = "\";\n" := by decide
    have hline : titleLine (some text) =
        "    label=" ++ "\"" ++ ("CFG: " ++ escapeLabel text) ++ "\"" ++ ";\n" := by
      show "    label=\"CFG: " ++ escapeLabel text ++ "\";\n" = _
      rw [← hfirst, ← hlast]
      simp only [String.append_assoc]
    rw [hline]
    exact .line (by decide) hbody (by decide)

theorem not_mem_edgeLine (e : Edge EdgeKind) : '"' ∉ (edgeLine e).toList := by
  have hstyle : '"' ∉ (edgeStyle e.label).toList := by
    cases e.label <;> decide
  show '"' ∉ ("    " ++ toString e.source ++ " -> " ++ toString e.target ++
    edgeStyle e.label ++ ";\n").toList
  simp [String.toList_append, not_mem_toString, hstyle]

/-- The literals of the file are the title, the font and the labels. -/
theorem reads_toDot (title : Option String) : Reads (f.toDot title)
    ((title.toList.map fun text => ("CFG: " ++ escapeLabel text).toList) ++ ["Courier".toList] ++
      f.blocks.map fun b => (f.boxLabel b).toList) := by
  have hfont : Reads "    labelloc=t;\n    node [shape=box, fontname=\"Courier\", fontsize=10];\n\n"
      ["Courier".toList] := by
    have hline : "    labelloc=t;\n    node [shape=box, fontname=\"Courier\", fontsize=10];\n\n" =
        "    labelloc=t;\n    node [shape=box, fontname=" ++ "\"" ++ "Courier" ++ "\"" ++
          ", fontsize=10];\n\n" := by decide
    rw [hline]
    exact .line (by decide) (.of_plain (by simp)) (by decide)
  have hboxes : Reads (String.join (f.blocks.map f.boxLine))
      (f.blocks.map fun b => (f.boxLabel b).toList) := .join fun b _ => f.reads_boxLine b
  have hedges : '"' ∉ (String.join (f.graph.edgesBySource.map edgeLine)).toList := by
    simp [String.toList_join, not_mem_edgeLine]
  exact .before
    (.before (.before (.append (.append (.behind (by decide) (reads_titleLine title)) hfont)
    hboxes) (by decide)) hedges) (by decide)

/-- A label text is written character by character and is read back but for its carriage returns. So
whatever title a graph is shown under and whatever its statements are, the literals of the file are
the title, the font and the label of each block, and none of them ends early or goes on into the
next line. -/
theorem dot_reads_back :
    (∀ text, (escapeLabel text).toList = text.toList.flatMap escapeLabelChar) ∧
    (∀ text, unescapeLabel (escapeLabel text).toList = some (text.toList.filter (· ≠ '\r'))) ∧
    ∀ (f : FlowGraph) (title : Option String), literals none (f.toDot title).toList =
      some ((title.toList.map fun text => ("CFG: " ++ escapeLabel text).toList) ++
        ["Courier".toList] ++ f.blocks.map fun b => (f.boxLabel b).toList) := by
  refine ⟨toList_escapeLabel, fun text => ?_, fun f title => (f.reads_toDot title).literals_eq⟩
  rw [toList_escapeLabel, unescapeLabel_flatMap]

end FlowGraph

end MethodFlow
