import Mathlib.Data.List.Forall2
import Mathlib.Tactic.Common

/-!
# The file of a topic

`topic_path` of `include/lf_ring/ipc_adapter.hpp`, on which all publishers and subscribers agree.
The name of the file is a prefix, three underscores, and the topic with each `/` replaced by one
underscore.

So a topic is always a file of the directory itself, whatever is in its name, as long as the prefix
has no `/`. But the replacement is not one to one. Two topics of one prefix have the same file
exactly if they differ in nothing but `/` and `_`, and topics of different prefixes may have the
same file too (`topicPath_eq_iff`).
-/

namespace LfRing.Topic

/-- The replacement in `topic_path`. -/
def sanitized (topic : List Char) : List Char := topic.map fun c => if c = '/' then '_' else c

/-- `operator/` of `std::filesystem::path`: an absolute path replaces the one before it, and
otherwise a separator stands in between unless there is nothing before it or one at its end. -/
def join (base path : List Char) : List Char :=
  if path.head? = some '/' then path
  else if base = [] ∨ base.getLast? = some '/' then base ++ path
  else base ++ '/' :: path

/-- The three underscores. -/
def separator : List Char := ['_', '_', '_']

/-- The name of the file. -/
def fileName (pre topic : List Char) : List Char := pre ++ separator ++ sanitized topic

/-- `topic_path`. -/
def topicPath (baseDir pre topic : List Char) : List Char := join baseDir (fileName pre topic)

/-- Two characters that the replacement does not tell apart. -/
def Same (c c' : Char) : Prop := c = c' ∨ c = '/' ∧ c' = '_' ∨ c = '_' ∧ c' = '/'

/-- Two characters are the same once replaced only if they are the same, or a `/` and a `_`. -/
theorem replaced_eq_iff (c c' : Char) :
    (if c = '/' then '_' else c) = (if c' = '/' then '_' else c') ↔ Same c c' := by
  unfold Same
  -- Whether each of the two is replaced.
  split_ifs with hc hc' hc' <;> grind

/-- What the replacement does not tell apart. -/
theorem sanitized_eq_iff (topic topic' : List Char) :
    sanitized topic = sanitized topic' ↔ List.Forall₂ Same topic topic' := by
  unfold sanitized
  induction topic generalizing topic' with
  | nil =>
    cases topic' with
    | nil => simp
    | cons c' topic' => simp
  | cons c topic ih =>
    cases topic' with
    | nil => simp
    | cons c' topic' =>
      rw [List.map_cons, List.map_cons, List.cons.injEq, List.forall₂_cons, ih, replaced_eq_iff]

/-- No `/` is left in a sanitized topic. -/
theorem slash_notMem_sanitized (topic : List Char) : '/' ∉ sanitized topic := by
  intro hmem
  obtain ⟨c, -, hc⟩ := List.mem_map.mp hmem
  split_ifs at hc with h
  · exact absurd hc (by decide)
  · exact h hc

/-- The name of the file has no `/` but those of the prefix. -/
theorem slash_notMem_fileName {pre : List Char} (hpre : '/' ∉ pre) (topic : List Char) :
    '/' ∉ fileName pre topic := by
  intro hmem
  rcases List.mem_append.mp hmem with hmem | hmem
  · rcases List.mem_append.mp hmem with hmem | hmem
    · exact hpre hmem
    · exact absurd hmem (by decide)
  · exact slash_notMem_sanitized topic hmem

/-- The directory, with a separator at its end unless it is the current one. -/
def dirPart (baseDir : List Char) : List Char :=
  if baseDir = [] ∨ baseDir.getLast? = some '/' then baseDir else baseDir ++ ['/']

/-- With no `/` in the prefix, the path is the directory followed by the name of the file. -/
theorem topicPath_eq {pre : List Char} (hpre : '/' ∉ pre) (baseDir topic : List Char) :
    topicPath baseDir pre topic = dirPart baseDir ++ fileName pre topic := by
  have hrel : (fileName pre topic).head? ≠ some '/' := by
    intro hhead
    exact slash_notMem_fileName hpre topic (List.mem_of_head? hhead)
  unfold topicPath join dirPart
  rw [if_neg hrel]
  split
  · rfl
  · rw [List.append_assoc]
    rfl

/-- For every directory, and prefixes without a `/`: the path of a topic is the directory and one
name in it, which has no `/` and is neither `.` nor `..`, and two topics have one path exactly if
their names are the same, which for one prefix means that the topics differ in nothing but `/` and
`_`. -/
theorem topicPath_eq_iff (baseDir pre pre' topic topic' : List Char) (hpre : '/' ∉ pre)
    (hpre' : '/' ∉ pre') :
    (∃ name, topicPath baseDir pre topic = dirPart baseDir ++ name ∧ '/' ∉ name ∧ 3 ≤ name.length) ∧
    (topicPath baseDir pre topic = topicPath baseDir pre' topic' ↔
      fileName pre topic = fileName pre' topic') ∧
    (topicPath baseDir pre topic = topicPath baseDir pre topic' ↔
      List.Forall₂ Same topic topic') := by
  refine ⟨⟨_, topicPath_eq hpre baseDir topic, slash_notMem_fileName hpre topic, ?_⟩, ?_, ?_⟩
  · simp only [fileName, separator, List.length_append, List.length_cons, List.length_nil]
    omega
  · rw [topicPath_eq hpre, topicPath_eq hpre', List.append_cancel_left_eq]
  · rw [topicPath_eq hpre, topicPath_eq hpre, List.append_cancel_left_eq, fileName, fileName,
      List.append_cancel_left_eq, sanitized_eq_iff]

/-- A topic that looks like a path out of the directory, one that shares its file, and one of
another prefix that does. -/
theorem topicPath_eq_iff_shared :
    topicPath ['d'] ['l', 'f'] ['.', '.', '/', 'a'] =
      topicPath ['d'] ['l', 'f'] ['.', '.', '_', 'a'] ∧
    topicPath ['d'] ['l'] ['_', '_', '_', 'a'] = topicPath ['d'] ['l', '_', '_', '_'] ['a'] := by
  constructor
  · refine (topicPath_eq_iff ['d'] ['l', 'f'] ['l', 'f'] _ _ (by decide) (by decide)).2.2.mpr ?_
    rw [← sanitized_eq_iff]
    decide
  · exact (topicPath_eq_iff ['d'] ['l'] ['l', '_', '_', '_'] _ _ (by decide) (by decide)).2.1.mpr
      (by decide)

end LfRing.Topic
