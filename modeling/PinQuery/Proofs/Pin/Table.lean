import PinQuery.Proofs.Pin.Usage

/-!
# The table of pins and their names

A pin is found by its name in a table of forty-two rows, or by taking its name apart. Texts of any
length may be asked for.

* `Pin.rows`: the rows of the table, written out.
* `Pin.lookup?_eq_some_iff_mem_rows`: looking up a name finds its row.
* `Pin.classify_digital_iff` and `Pin.classify_analog_iff`: the one text that is the name of a pin.
* `table_agrees_with_names`: both ways find the same pin for the same texts, and writing the name of
  a pin is their inverse.
-/

namespace PinQuery

namespace Pin

/-- The rows of the table of pins: a name, its kind and its index. -/
def rows : List (String × PinKind × Nat) :=
  [("din0", .digital, 0), ("din1", .digital, 1), ("din2", .digital, 2), ("din3", .digital, 3),
    ("din4", .digital, 4), ("din5", .digital, 5), ("din6", .digital, 6), ("din7", .digital, 7),
    ("din8", .digital, 8), ("din9", .digital, 9), ("din10", .digital, 10), ("din11", .digital, 11),
    ("din12", .digital, 12), ("din13", .digital, 13), ("din14", .digital, 14),
    ("din15", .digital, 15), ("din16", .digital, 16), ("din17", .digital, 17),
    ("din18", .digital, 18), ("din19", .digital, 19), ("din20", .digital, 20),
    ("ain0", .analog, 0), ("ain1", .analog, 1), ("ain2", .analog, 2), ("ain3", .analog, 3),
    ("ain4", .analog, 4), ("ain5", .analog, 5), ("ain6", .analog, 6), ("ain7", .analog, 7),
    ("ain8", .analog, 8), ("ain9", .analog, 9), ("ain10", .analog, 10), ("ain11", .analog, 11),
    ("ain12", .analog, 12), ("ain13", .analog, 13), ("ain14", .analog, 14), ("ain15", .analog, 15),
    ("ain16", .analog, 16), ("ain17", .analog, 17), ("ain18", .analog, 18), ("ain19", .analog, 19),
    ("ain20", .analog, 20)]

theorem map_all_eq_rows : all.map (fun pin => (pin.name, pin.kind, pin.index)) = rows := by
  decide

/-- Looking up a name finds its row. -/
theorem lookup?_eq_some_iff_mem_rows {text : String} {pin : Pin} :
    lookup? text = some pin ↔ (text, pin.kind, pin.index) ∈ rows := by
  rw [← map_all_eq_rows, lookup?_eq_some_iff, List.mem_map]
  constructor
  · rintro ⟨hindex, rfl⟩
    exact ⟨pin, mem_all_iff.2 hindex, rfl⟩
  · rintro ⟨pin', hmem, hrow⟩
    obtain ⟨hname, hkind, hindex⟩ : pin'.name = text ∧ pin'.kind = pin.kind ∧
        pin'.index = pin.index := by simpa using hrow
    obtain rfl : pin' = pin := by
      cases pin
      cases pin'
      simp_all
    exact ⟨mem_all_iff.1 hmem, hname⟩

theorem lookup?_eq_none_iff {text : String} : lookup? text = none ↔ ¬IsPinName text := by
  rw [IsPinName, Bool.not_eq_true, Option.isSome_eq_false_iff, Option.isNone_iff_eq_none]

/-- The one name of a digital pin. -/
theorem classify_digital_iff {text : String} {index : Nat} :
    classify text = .ok ⟨.digital, index⟩ ↔ index ≤ 20 ∧ text = "din" ++ index.repr := by
  rw [classify_eq_ok_iff, eq_comm (a := text)]
  rfl

/-- The one name of an analog pin. -/
theorem classify_analog_iff {text : String} {index : Nat} :
    classify text = .ok ⟨.analog, index⟩ ↔ index ≤ 20 ∧ text = "ain" ++ index.repr := by
  rw [classify_eq_ok_iff, eq_comm (a := text)]
  rfl

end Pin

/-- **The table and the names agree on every text.** A text is taken apart into a pin if and only if
the table has it, and then into the pin of its row; any other text is no pin for both. Digital pins
are named by `din` and their index in decimal digits, analog ones by `ain`, and by nothing else. So
taking names apart and writing the names of pins are inverse to each other on the indices up to
20. -/
theorem table_agrees_with_names (text : String) :
    (∀ pin, Pin.lookup? text = some pin ↔ Pin.classify text = .ok pin) ∧
    (∀ pin, Pin.lookup? text = some pin ↔ (text, pin.kind, pin.index) ∈ Pin.rows) ∧
    (Pin.lookup? text = none ↔ Pin.classify text = .error (.unsupported text ⟨0, 0⟩)) ∧
    (∀ index, Pin.classify text = .ok ⟨.digital, index⟩ ↔
      index ≤ 20 ∧ text = "din" ++ index.repr) ∧
    (∀ index, Pin.classify text = .ok ⟨.analog, index⟩ ↔
      index ≤ 20 ∧ text = "ain" ++ index.repr) ∧
    ∀ pin, Pin.classify text = .ok pin ↔ pin.index ≤ 20 ∧ pin.name = text := by
  refine ⟨fun pin => ?_, fun pin => Pin.lookup?_eq_some_iff_mem_rows, ?_,
    fun index => Pin.classify_digital_iff, fun index => Pin.classify_analog_iff,
    fun pin => Pin.classify_eq_ok_iff⟩
  · rw [Pin.lookup?_eq_some_iff, Pin.classify_eq_ok_iff]
  · rw [Pin.lookup?_eq_none_iff, Pin.classify_eq_error_iff, and_iff_left rfl]

/-- Texts that almost are names of pins: a leading zero, a digit of another script, an index that is
too large by one or by hundreds of digits. -/
example : ["din01", "din\u0663", "ain21", "ain" ++ "".pushn '9' 300].map Pin.lookup? =
    [none, none, none, none] := by
  decide +kernel

end PinQuery
