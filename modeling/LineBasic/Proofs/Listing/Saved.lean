import LineBasic.Listing.File
import LineBasic.Proofs.Listing.Renumbering
import LineBasic.Proofs.Listing.Rewriting
import LineBasic.Proofs.Text.Lines

/-!
# Saved programs

A saved program is read back as it was if each of its texts could have been entered: it is not
empty and does not start with a blank, has no line feed and no carriage return at its end, and is
in upper case outside quotes.
-/

set_option autoImplicit false

namespace LineBasic

structure NormalText (cs : List Char) : Prop where
  noFeed : '\n' ∉ cs
  ends : ∀ c ∈ cs.getLast?, c ≠ '\r'
  upper : Text.programUpperFrom none cs = cs

structure StoredText (cs : List Char) : Prop extends NormalText cs where
  ne_nil : cs ≠ []
  starts : ∀ c ∈ cs.head?, Text.isBlank c = false

theorem NormalText.of_append {front cs : List Char} (h : NormalText (front ++ cs))
    (hq : ∀ c ∈ front, Text.isQuote c = false) : NormalText cs where
  noFeed hc := h.noFeed (List.mem_append_right front hc)
  ends c hc := h.ends c (by rw [List.getLast?_append, hc]; rfl)
  upper := by
    have hupper := h.upper
    rw [Text.programUpperFrom_append, Text.quoteAfter_of_not_isQuote hq] at hupper
    exact List.append_inj_right hupper (Text.length_programUpperFrom none front)

theorem NormalText.append {front cs : List Char} (h : NormalText cs) (hne : cs ≠ [])
    (hfront : ∀ c ∈ front, c.isDigit = true ∨ c = ' ') : NormalText (front ++ cs) where
  noFeed hc := by
    rcases List.mem_append.1 hc with hc | hc
    · rcases hfront _ hc with hd | hd <;> contradiction
    · exact h.noFeed hc
  ends c hc := by
    have hlast : (front ++ cs).getLast? = cs.getLast? := by
      obtain ⟨x, hx⟩ := Option.ne_none_iff_exists'.1 (mt List.getLast?_eq_none_iff.1 hne)
      rw [List.getLast?_append, hx]
      rfl
    exact h.ends c (hlast ▸ hc)
  upper := by
    have hplain : ∀ c ∈ front, Text.isQuote c = false ∧ c.toUpper = c := by
      intro c hc
      rcases hfront c hc with hd | rfl
      · exact ⟨Text.not_isQuote_of_isDigit hd, Text.toUpper_of_isDigit hd⟩
      · exact ⟨rfl, rfl⟩
    rw [Text.programUpperFrom_append, Text.quoteAfter_of_not_isQuote fun c hc => (hplain c hc).1,
      Text.programUpperFrom_of_toUpper_eq hplain, h.upper]

theorem normalText_programUpper {line : String} (hf : '\n' ∉ line.toList)
    (he : ∀ c ∈ line.toList.getLast?, c ≠ '\r') :
    NormalText (Text.programUpper line).toList := by
  rw [Text.programUpper, String.toList_ofList]
  exact {
    noFeed := fun h => hf (Text.mem_of_mem_programUpperFrom rfl h)
    ends := fun c hc hr => by
      subst hr
      exact he '\r' (Text.getLast_of_programUpperFrom rfl hc) rfl
    upper := Text.programUpperFrom_programUpperFrom none line.toList }

theorem numberedLine?_eq_some {line text : String} {n : LineNumber}
    (h : numberedLine? line = some (n, text)) :
    (0 ≤ n ∧ n ≤ maxLineNumber) ∧ (∀ c ∈ text.toList.head?, Text.isBlank c = false) ∧
      ∃ front, line.toList = front ++ text.toList ∧ ∀ c ∈ front, Text.isQuote c = false := by
  obtain ⟨⟨k, size⟩, hscan, heq⟩ := Option.map_eq_some_iff.1 h
  cases heq
  obtain ⟨hrange, _, hfront⟩ := Number.scanLineNumber_eq_some hscan
  let rest := line.toList.drop size
  rw [String.toList_ofList]
  refine ⟨hrange, fun c hc => ?_, line.toList.take size ++ rest.takeWhile Text.isBlank, ?_, ?_⟩
  · have := List.head?_dropWhile_not Text.isBlank rest
    rw [hc] at this
    exact this
  · rw [List.append_assoc, List.takeWhile_append_dropWhile, List.take_append_drop]
  · intro c hc
    rcases List.mem_append.1 hc with hc | hc
    · rcases hfront c hc with hs | hd
      · exact Text.not_isQuote_of_isBlank (Text.isBlank_of_isSpacing hs)
      · exact Text.not_isQuote_of_isDigit hd
    · exact Text.not_isQuote_of_isBlank (List.all_eq_true.1 List.all_takeWhile c hc)

theorem storedText_of_numberedLine? {line text : String} {n : LineNumber}
    (hline : NormalText line.toList) (h : numberedLine? line = some (n, text))
    (hne : text.isEmpty = false) : StoredText text.toList := by
  obtain ⟨_, hstart, front, hsplit, hquote⟩ := numberedLine?_eq_some h
  rw [hsplit] at hline
  exact { toNormalText := hline.of_append hquote, ne_nil := by simpa using hne, starts := hstart }

/-- A number with a text behind it is read as that line. -/
theorem numberedLine?_written {n : LineNumber} (hn : 0 ≤ n ∧ n ≤ maxLineNumber) {text : String}
    (ht : StoredText text.toList) : numberedLine? (toString n ++ " " ++ text) = some (n, text) := by
  have hline : (toString n ++ " " ++ text).toList = (toString n).toList ++ ' ' :: text.toList := by
    simp
  have hscan : Number.scanLineNumber ((toString n).toList ++ ' ' :: text.toList) = _ :=
    Number.scanLineNumber_digits (Number.toString_ne_nil hn.1)
      (fun c => Number.isDigit_of_mem_toString hn.1) (fun c hc => by cases hc; rfl)
  have htext : (' ' :: text.toList).dropWhile Text.isBlank = text.toList := by
    obtain ⟨c, cs, hcs⟩ := List.exists_cons_of_ne_nil ht.ne_nil
    have hc := ht.starts c (by rw [hcs]; rfl)
    rw [List.dropWhile_cons_of_pos rfl, hcs, List.dropWhile_cons_of_neg (by simp [hc])]
  rw [Number.lineNumberOf?_toString hn.1 hn.2] at hscan
  rw [numberedLine?, hline, hscan]
  simp [htext]

/-- Renumbering the references keeps a text as it can be stored. -/
theorem StoredText.rewriteFrom {changes : Renumbering} (hch : ∀ c ∈ changes, 0 ≤ c.2)
    {cs : List Char} (h : StoredText cs) :
    StoredText (LineBasic.rewriteFrom changes none none cs) := by
  have hred := redigited_rewriteFrom hch none none cs
  exact {
    noFeed := fun hc => h.noFeed (hred.mem hc rfl)
    ends := fun c hc hr => by
      subst hr
      exact h.ends '\r' (hred.getLast hc rfl) rfl
    upper := hred.upper (fun q hq => by cases hq) h.upper
    ne_nil := fun hnil => h.ne_nil (hred.eq_nil hnil)
    starts := fun c hc => h.starts c (by rwa [head_rewriteFrom] at hc) }

namespace Listing

def Savable (l : Listing) : Prop :=
  ∀ n text, l.get? n = some text → 0 ≤ n → n ≤ maxLineNumber ∧ StoredText text.toList

theorem savable_empty : Savable {} := by
  intro n text h
  cases h

theorem Savable.of_get? {l l' : Listing} (h : l.Savable)
    (hget : ∀ n text, l'.get? n = some text → l.get? n = some text) : l'.Savable :=
  fun n text hn => h n text (hget n text hn)

theorem Savable.insert {l : Listing} (h : l.Savable) {n : LineNumber} {text : String}
    (hn : 0 ≤ n → n ≤ maxLineNumber ∧ StoredText text.toList) : (l.insert n text).Savable := by
  intro k text' hk
  rw [Listing.insert, get?, Table.get?_insert] at hk
  split at hk
  · cases hk
    subst_vars
    exact hn
  · exact h k text' hk

theorem Savable.erase {l : Listing} (h : l.Savable) (n : LineNumber) : (l.erase n).Savable := by
  refine h.of_get? fun k text hk => ?_
  rw [Listing.erase, get?, Table.get?_erase] at hk
  split at hk
  · cases hk
  · exact hk

theorem Savable.eraseRange {l : Listing} (h : l.Savable) (first last : LineNumber) :
    (l.eraseRange first last).Savable := by
  refine h.of_get? fun k text hk => ?_
  rw [Listing.eraseRange, get?, Table.get?_filterKeys] at hk
  split at hk
  · exact hk
  · cases hk

theorem Savable.enterLine {l : Listing} (h : l.Savable) {line text : String} {n : LineNumber}
    (hline : NormalText line.toList) (hn : numberedLine? line = some (n, text)) :
    (l.enterLine n text).Savable := by
  rw [Listing.enterLine]
  split
  · exact h.erase n
  · rename_i hne
    refine h.insert fun _ => ⟨(numberedLine?_eq_some hn).1.2, ?_⟩
    exact storedText_of_numberedLine? hline hn (by simpa using hne)

theorem Savable.renumber {l l' : Listing} (h : l.Savable) {r : RenumberRequest}
    (hr : l.renumber r = .ok l') : l'.Savable := by
  obtain ⟨changes, hc, hentries⟩ := renumber_eq_ok hr
  have hch : ∀ c ∈ changes, 0 ≤ c.2 := fun c hmem => (range_of_mem_changes hc hmem).1
  intro n text hn h0
  have hmem : (n, text) ∈ l'.lines.entries := Table.mem_entries_iff.2 hn
  rw [hentries] at hmem
  obtain ⟨e, he, heq⟩ := List.mem_map.1 hmem
  by_cases hneg : e.1 < 0
  · rw [renumberedEntry_of_neg hneg] at heq
    subst heq
    exact absurd h0 (Int.not_le.2 hneg)
  · have hnonneg := Int.not_lt.1 hneg
    obtain ⟨hmax, htext⟩ := h e.1 e.2 (Table.mem_entries_iff.1 he) hnonneg
    have hnum : e.1 ∈ l.numbers := List.mem_map.2 ⟨e, mem_program.2 ⟨he, hnonneg, hmax⟩, rfl⟩
    rw [renumberedEntry_of_nonneg hnonneg] at heq
    obtain ⟨rfl, rfl⟩ := Prod.mk.inj heq
    refine ⟨(range_newNumber hc hnum).2, ?_⟩
    rw [rewriteReferences, String.toList_ofList]
    exact htext.rewriteFrom hch

theorem normalText_fileLine {raw : String} (h : '\n' ∉ raw.toList) :
    NormalText (Text.programUpper
      (String.ofList (Text.dropTrailing (· == '\r') raw.toList))).toList := by
  refine normalText_programUpper ?_ ?_
  · rw [String.toList_ofList]
    exact fun hc => h ((Text.dropTrailing_prefix _ raw.toList).subset hc)
  · rw [String.toList_ofList]
    intro c hc
    simpa using Text.getLast_dropTrailing c hc

/-- What entering a numbered line keeps is kept by reading lines. -/
theorem loadLines_induction {P : Listing → Prop}
    (henter : ∀ l line n text, NormalText line.toList → numberedLine? line = some (n, text) →
      P l → P (l.enterLine n text))
    {l l' : Listing} {raws : List String} (hraws : ∀ raw ∈ raws, '\n' ∉ raw.toList) (h : P l)
    (hload : loadLines l raws = .ok l') : P l' := by
  induction raws generalizing l with
  | nil =>
    cases hload
    exact h
  | cons raw raws ih =>
    have hmore : ∀ x ∈ raws, '\n' ∉ x.toList := fun x hx => hraws x (List.mem_cons_of_mem raw hx)
    rw [loadLines.eq_def] at hload
    dsimp only at hload
    split at hload
    · exact ih hmore h hload
    · split at hload
      · rename_i n text hn
        have hnormal := normalText_fileLine (hraws raw List.mem_cons_self)
        exact ih hmore (henter l _ n text hnormal hn h) hload
      · cases hload

theorem ofText_induction {P : Listing → Prop} (hempty : P {})
    (henter : ∀ l line n text, NormalText line.toList → numberedLine? line = some (n, text) →
      P l → P (l.enterLine n text))
    {s : String} {l : Listing} (h : ofText s = .ok l) : P l :=
  loadLines_induction henter (fun _ => Text.feed_not_mem_of_mem_lines) hempty h

theorem savable_of_ofText {s : String} {l : Listing} (h : ofText s = .ok l) : l.Savable :=
  ofText_induction savable_empty (fun _ _ _ _ hnormal hn hl => hl.enterLine hnormal hn) h

theorem nonneg_of_ofText {s : String} {l : Listing} (h : ofText s = .ok l) :
    ∀ n text, l.get? n = some text → 0 ≤ n := by
  apply ofText_induction (P := fun l => ∀ n text, l.get? n = some text → 0 ≤ n) _ _ h
  · intro n text hn
    cases hn
  intro l line k text _ hk hl n text' hn
  rw [enterLine, get?] at hn
  split at hn
  · rw [erase, Table.get?_erase] at hn
    split at hn
    · cases hn
    · exact hl n text' hn
  · rw [insert, Table.get?_insert] at hn
    split at hn
    · rename_i heq
      exact heq ▸ (numberedLine?_eq_some hk).1.1
    · exact hl n text' hn

def written (e : LineNumber × String) : String := toString e.1 ++ " " ++ e.2

theorem toList_written (e : LineNumber × String) :
    (written e).toList = (toString e.1).toList ++ ' ' :: e.2.toList := by
  simp [written]

theorem normalText_written {e : LineNumber × String} (h0 : 0 ≤ e.1)
    (ht : StoredText e.2.toList) : NormalText (written e).toList := by
  rw [toList_written, ← List.singleton_append, ← List.append_assoc]
  refine ht.toNormalText.append ht.ne_nil fun c hc => ?_
  rcases List.mem_append.1 hc with hc | hc
  · exact .inl (Number.isDigit_of_mem_toString h0 hc)
  · exact .inr (List.mem_singleton.1 hc)

theorem head_written {e : LineNumber × String} (h0 : 0 ≤ e.1) :
    ∃ c cs, (written e).toList = c :: cs ∧ c.isDigit = true := by
  obtain ⟨c, cs, hcs⟩ := List.exists_cons_of_ne_nil (Number.toString_ne_nil h0)
  refine ⟨c, cs ++ ' ' :: e.2.toList, by rw [toList_written, hcs]; rfl, ?_⟩
  exact Number.isDigit_of_mem_toString h0 (hcs ▸ List.mem_cons_self)

/-- Saved lines are read one by one into the listing. -/
theorem loadLines_written (t : Table LineNumber String) {es : List (LineNumber × String)}
    (h : ∀ e ∈ es, (0 ≤ e.1 ∧ e.1 ≤ maxLineNumber) ∧ StoredText e.2.toList) :
    loadLines ⟨t⟩ (es.map written) = .ok ⟨es.foldl (fun t e => t.insert e.1 e.2) t⟩ := by
  induction es generalizing t with
  | nil => rfl
  | cons e es ih =>
    obtain ⟨hn, ht⟩ := h e List.mem_cons_self
    have hnormal := normalText_written hn.1 ht
    have hline : Text.programUpper (String.ofList
        (Text.dropTrailing (· == '\r') (written e).toList)) = written e := by
      rw [Text.dropTrailing_of_getLast fun c hc => by simpa using hnormal.ends c hc,
        String.ofList_toList, Text.programUpper, hnormal.upper, String.ofList_toList]
    have hblank : Text.isBlankText (written e) = false := by
      obtain ⟨c, cs, hcs, hc⟩ := head_written hn.1
      simp [Text.isBlankText, hcs, Text.not_isBlank_of_isDigit hc]
    have hnumber : numberedLine? (written e) = some (e.1, e.2) := numberedLine?_written hn ht
    have hstored : enterLine ⟨t⟩ e.1 e.2 = ⟨t.insert e.1 e.2⟩ := by
      have hne : e.2.isEmpty = false := by simpa using ht.ne_nil
      rw [enterLine, hne]
      rfl
    rw [List.map_cons, loadLines.eq_def]
    simp only [hline, hblank, hnumber, hstored, Bool.false_eq_true, if_false]
    exact ih _ fun x hx => h x (List.mem_cons_of_mem e hx)

theorem toText_eq (l : Listing) :
    l.toText = String.join ((l.program.map written).map fun x => x ++ "\r\n") := by
  rw [toText, List.map_map]
  rfl

theorem dropByteOrderMark_toText (l : Listing) : dropByteOrderMark l.toText = l.toText := by
  have hhead : ∀ c ∈ l.toText.toList.head?, c.isDigit = true := by
    intro c hc
    rw [toText_eq] at hc
    cases hp : l.program with
    | nil =>
      rw [hp] at hc
      cases hc
    | cons e es =>
      have h0 : 0 ≤ e.1 := by
        have he : e ∈ l.program := hp ▸ List.mem_cons_self
        have := (List.mem_filter.1 he).2
        simp only [inRange, Bool.and_eq_true, decide_eq_true_eq] at this
        exact this.1.1
      obtain ⟨d, ds, hds, hd⟩ := head_written h0
      rw [hp, List.map_cons, List.map_cons, String.join_cons, String.toList_append,
        String.toList_append, hds] at hc
      cases hc
      exact hd
  rw [dropByteOrderMark]
  split
  · rename_i cs hcs
    have := hhead '\uFEFF' (by rw [hcs]; rfl)
    contradiction
  · rfl

theorem program_of_savable {l : Listing} (h : l.Savable) :
    l.program = l.lines.entries.filter fun e => decide (0 ≤ e.1) := by
  refine List.filter_congr fun e he => ?_
  have hget : l.get? e.1 = some e.2 := Table.mem_entries_iff.1 he
  by_cases h0 : 0 ≤ e.1
  · simp [inRange, h0, (h e.1 e.2 hget h0).1]
  · simp [inRange, h0]

theorem eq_of_entries_eq {l l' : Listing} (h : l.lines.entries = l'.lines.entries) : l = l' := by
  rcases l with ⟨⟨es, _⟩⟩
  rcases l' with ⟨⟨es', _⟩⟩
  cases h
  rfl

/-- A program that can be saved is read back line by line. -/
theorem ofText_toText {l : Listing} (h : l.Savable) :
    ∃ l', ofText l.toText = .ok l' ∧
      l'.lines.entries = l.lines.entries.filter fun e => decide (0 ≤ e.1) := by
  have hlines : ∀ e ∈ l.program, (0 ≤ e.1 ∧ e.1 ≤ maxLineNumber) ∧ StoredText e.2.toList := by
    intro e he
    rw [program_of_savable h, List.mem_filter] at he
    have h0 : 0 ≤ e.1 := by simpa using he.2
    obtain ⟨hmax, ht⟩ := h e.1 e.2 (Table.mem_entries_iff.1 he.1) h0
    exact ⟨⟨h0, hmax⟩, ht⟩
  have hread : Text.lines l.toText = l.program.map written := by
    rw [toText_eq]
    refine Text.lines_join fun x hx => ?_
    obtain ⟨e, he, rfl⟩ := List.mem_map.1 hx
    exact (normalText_written (hlines e he).1.1 (hlines e he).2).noFeed
  have hsorted : Sorted l.program := List.Pairwise.filter _ l.lines.sorted
  refine ⟨⟨.ofList l.program⟩, ?_, ?_⟩
  · rw [ofText, dropByteOrderMark_toText, hread]
    exact loadLines_written .empty hlines
  · rw [← program_of_savable h]
    exact Table.entries_ofList hsorted

theorem ofText_toText_of_ofText {s : String} {l : Listing} (h : ofText s = .ok l) :
    ofText l.toText = .ok l := by
  obtain ⟨l', hread, hlines⟩ := ofText_toText (savable_of_ofText h)
  have hall : l.lines.entries.filter (fun e => decide (0 ≤ e.1)) = l.lines.entries :=
    List.filter_eq_self.2 fun e he =>
      decide_eq_true (nonneg_of_ofText h e.1 e.2 (Table.mem_entries_iff.1 he))
  rw [hall] at hlines
  rw [hread, eq_of_entries_eq hlines]

end Listing

end LineBasic
