import SqlTree.Proofs.RoundTrip.ChangeStatements
import SqlTree.Proofs.RoundTrip

/-! Statements that change rows come back from their text as they were written. -/

namespace SqlTree

open Syntax (headed untyped)
open Syntax.Parser

namespace Change

variable {cs : List (String × Value)} {ts : List Token} {es : Entries}

/-- In every order of its entries the clause map is one command of a text. -/
theorem Stating.commanded (h : Stating cs ts) (hes : es.Perm (entriesOf cs)) : Commanded es ts := by
  obtain ⟨w, hw, us, rfl⟩ := h.starts
  have hne : Lexer.nameToken w :: us ≠ [] := by simp
  refine { form := form_of_perm hes h.order, writes := ?_, command := fun n hn => ?_, starts := ?_ }
  · obtain ⟨tss, htss, hflat⟩ := h.phrases
    obtain ⟨f, hf, hs⟩ := phrases_write htss h.order hes (hflat ▸ hne) false
    exact ⟨f, hf, hflat ▸ hs⟩
  · have htake := command_of_statement (fun v hv o => ?_) (h.takes n hn)
    · refine htake.mono (fun _ => id) ?_
      rintro _ ⟨q, rfl, fs, hfs, hsame⟩
      exact ⟨q, rfl, fs, hfs, echoes_perm hsame hes.symm⟩
    · have hall : ∀ w ∈ ["INSERT", "UPDATE", "DELETE"],
          ∀ v ∈ ["create", "drop", "truncate", "alter"],
            isKeyword v (some (Lexer.nameToken w)) = false := by
        decide
      exact hall w hw v hv
  · have hall : ∀ w ∈ ["INSERT", "UPDATE", "DELETE"],
        isSymbol ";" (some (Lexer.nameToken w)) = false := by
      decide
    exact fun _ => hall w hw

/-- A change comes back from its text, whatever the order of its clauses. -/
theorem parse_format_change (c : Change) (h : es.Perm c.entries) :
    ∃ levels : Nat, ∀ renderDepth parseDepth : Int, levels ≤ renderDepth → levels ≤ parseDepth →
      ∃ out w, format .standard { inline := true, maxDepth := some renderDepth } (.map es) =
          .ok out ∧ parse parseDepth out.sql = .ok w ∧ w.same (.map es) = true := by
  obtain ⟨ts, hts⟩ := c.exists_stating
  exact (hts.commanded h).parse_written

section Samples

def columnsSample (c : String) (cs : List String) (h : ∀ n ∈ c :: cs, PlainName n) : Columns :=
  ⟨c :: cs, List.cons_ne_nil _ _, h⟩

theorem expressible_one : Expressible (untyped (.int 1)) := .int (by decide)

def setSample : Assignments where
  items := [("b", untyped (.int 1))]
  ne_nil := by simp
  nodup := by simp
  plain := by simpa using plainName_letter (by decide)
  expressible := by simpa using expressible_one

theorem comparisonSample : Expressible (headed "=" [.text "a", .text "b"]) :=
  .comparison (by decide) (plainName_letter (by decide)).dotted.expressible
    (plainName_letter (by decide)).dotted.expressible

/-- An insertion with all its clauses. -/
def upsertSample : Change := .insert {
  target :=
    ⟨"t", plainName_letter (by decide), some "u", by simpa using plainName_letter (by decide)⟩
  columns := some (columnsSample "a" ["b"] (by decide))
  source := .rows [[.null, headed "default" []], [untyped (.int 1), untyped (.text "it's")]]
    (by simp)
    (by simp [Cell.null, Cell.default, Cell.expression, expressible_one, Expressible.string])
  conflict := some ⟨.columns (columnsSample "a" [] (by decide)),
    .setWhere setSample _ comparisonSample _ (.swap _ _ _)⟩
  returning := some ⟨[.text "c"], by simp,
    by simpa using SelectItem.expression (plainName_letter (by decide)).dotted.expressible⟩ }

theorem parse_format_upsertSample :
    ∃ levels : Nat, ∀ renderDepth parseDepth : Int, levels ≤ renderDepth → levels ≤ parseDepth →
      ∃ out w, format .standard { inline := true, maxDepth := some renderDepth }
          (.map upsertSample.entries.reverse) = .ok out ∧ parse parseDepth out.sql = .ok w ∧
        w.same (.map upsertSample.entries.reverse) = true :=
  upsertSample.parse_format_change (List.reverse_perm _)

example : (format .standard { inline := true } (.map upsertSample.entries.reverse)).toOption.map
    Formatted.sql = some ("INSERT INTO t AS u (a, b) VALUES (NULL, DEFAULT), (1, 'it''s') " ++
      "ON CONFLICT (a) DO UPDATE SET b = 1 WHERE a = b RETURNING c") := by
  decide +kernel

/-- `INSERT INTO t VALUES (1) ON CONFLICT (a) DO UPDATE SET fields = excluded.fields` -/
def fieldsSample : Value := .map
  [(.text "insert-into", .text "t"), (.text "values", .list [.list [untyped (.int 1)]]),
    (.text "on-conflict", .list [.text "a"]),
    (.text "do-update-set", .map [(.text "fields", .text "excluded.fields")])]

/-- What a column named `fields` is set to is taken for the columns of a map with a condition. -/
theorem fields_not_parsed_back :
    (format .standard { inline := true } fieldsSample).toOption.map Formatted.sql = some
        ("INSERT INTO t VALUES (1) ON CONFLICT (a) " ++
          "DO UPDATE SET excluded.fields = EXCLUDED.excluded.fields") ∧
      (parse defaultParseDepth ("INSERT INTO t VALUES (1) ON CONFLICT (a) " ++
        "DO UPDATE SET excluded.fields = EXCLUDED.excluded.fields")).toOption.isNone ∧
      PlainName "fields" ∧ PlainName "excluded" := by
  decide +kernel

end Samples

end Change

end SqlTree
