import DocFilter.Proofs.Results
import DocFilter.Yaml.Simple

/-!
# What a text can be that has no value under a tag

Some tags have a value for every text, or a rule that the text breaks.  `Tag.Lacks` lists what a text can be under the
others that neither has a value nor breaks a rule, and `readSimple_yields` says that there is nothing else.
-/

namespace DocFilter

/-- A fault of what a text says, not of the system of who reads it. -/
def Fault.InText (fault : Fault) : Prop := fault ≠ .system

namespace Yaml

/-- The faults that a text can be under a tag. -/
inductive Tag.Lacks : Tag → Fault → Prop
  | word : Lacks .bool .key
  | blankWhole : Lacks .int .index
  | whole (reason : Unfit) : Lacks .int (.value reason)
  | blankFraction : Lacks .float .index
  | fraction (reason : Unfit) : Lacks .float (.value reason)
  | weight : Lacks .float .overflow
  | noTimestamp : Lacks .timestamp .attribute
  | calendar (reason : Unfit) : Lacks .timestamp (.value reason)

theorem Tag.Lacks.inText {tag : Tag} {fault : Fault} (h : tag.Lacks fault) : fault.InText := by
  cases h <;> nofun

/-- A refusal of a text under a tag. -/
def Tag.Blames (tag : Tag) : Error → Prop
  | .malformed _ => True
  | .fault fault => tag.Lacks fault

variable {α : Type} {tag : Tag}

theorem orUnfit_yields (h : ∀ reason, tag.Lacks (.value reason)) (read : Except Unfit α) :
    Yields tag.Blames (fun _ => True) (orUnfit read) := by
  cases read with
  | ok a => trivial
  | error reason => exact h reason

theorem readBool_yields (cs : List Char) : Yields (Tag.bool).Blames (fun _ => True) (readBool cs) :=
  .ite (fun _ => trivial) fun _ => .ite (fun _ => trivial) fun _ => Tag.Lacks.word

theorem readInt_yields (cs : List Char) : Yields (Tag.int).Blames (fun _ => True) (readInt cs) := by
  have hbase (base : Nat) (digits : List Char) : Yields (Tag.int).Blames (fun _ => True) (readBase base digits) :=
    orUnfit_yields .whole _
  have hplaces (places : List (List Char)) : Yields (Tag.int).Blames (fun _ => True)
      ((places.mapM (readBase 10)).map sexagesimal) :=
    (Yields.mapM fun place _ => hbase 10 place).map fun _ _ => trivial
  dsimp only [readInt]
  split
  next => exact Tag.Lacks.blankWhole
  next => trivial
  next => exact (hbase _ _).bind fun _ _ => trivial
  next => exact (hbase _ _).bind fun _ _ => trivial
  next => exact (hbase _ _).bind fun _ _ => trivial
  next =>
    exact .ite (fun _ => (hplaces _).bind fun _ _ => trivial) fun _ => (hbase _ _).bind fun _ _ => trivial

theorem sexagesimalSum_yields (weight : Int) (sum : Double) (places : List Double) :
    Yields (Tag.float).Blames (fun _ => True) (sexagesimalSum weight sum places) := by
  induction places generalizing weight sum with
  | nil => trivial
  | cons place places ih =>
    rw [sexagesimalSum]
    split
    next => exact ih _ _
    next => exact Tag.Lacks.weight

theorem readFloat_yields (cs : List Char) : Yields (Tag.float).Blames (fun _ => True) (readFloat cs) := by
  have hplace (place : List Char) : Yields (Tag.float).Blames (fun _ => True) (orUnfit (readFraction place)) :=
    orUnfit_yields .fraction _
  unfold readFloat
  refine .ite (fun _ => Tag.Lacks.blankFraction) fun _ => .ite (fun _ => trivial) fun _ => .ite (fun _ => trivial)
    fun _ => .ite (fun _ => ?_) fun _ => (hplace _).map fun _ _ => trivial
  exact (Yields.mapM fun place _ => hplace place).bind fun _ _ =>
    (sexagesimalSum_yields _ _ _).bind fun _ _ => trivial

theorem readBinary_yields (cs : List Char) : Yields (Tag.binary).Blames (fun _ => True) (readBinary cs) := by
  unfold readBinary
  split
  next => cases readBytes {} cs <;> trivial
  next => trivial

theorem readTimestamp_yields (cs : List Char) : Yields (Tag.timestamp).Blames (fun _ => True) (readTimestamp cs) := by
  unfold readTimestamp
  split
  next => exact orUnfit_yields .calendar _
  next => exact Tag.Lacks.noTimestamp

/-- A text has a value under a tag, or it breaks a rule, or it is one of the faults that the tag tells. -/
theorem readSimple_yields (tag : Tag) (text : String) :
    Yields tag.Blames (fun _ => True) (readSimple tag text) := by
  cases tag with
  | null | str => trivial
  | bool => exact (readBool_yields _).map fun _ _ => trivial
  | int => exact (readInt_yields _).map fun _ _ => trivial
  | float => exact (readFloat_yields _).map fun _ _ => trivial
  | binary => exact (readBinary_yields _).map fun _ _ => trivial
  | timestamp => exact readTimestamp_yields _
  | _ => trivial

/-- The tag tells which faults a text can be. -/
theorem lacks_of_readSimple {text : String} {fault : Fault} (h : readSimple tag text = noValue fault) :
    tag.Lacks fault := by
  have hyields := readSimple_yields tag text
  rw [h] at hyields
  exact hyields

/-- A day that the calendar does not have. -/
example : readSimple .timestamp "2024-02-30" = noValue (.value .day) := by rfl

end Yaml

end DocFilter
