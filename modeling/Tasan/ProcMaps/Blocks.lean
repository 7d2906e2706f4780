import Tasan.ProcMaps.Profile

/-!
# The blocks of a memory profile

A complete text of `/proc/self/smaps` is a sequence of blocks, each of which has the header of a
mapping and some fields, among them the size of what is resident. `ParseUnixMemoryProfile` cuts off
the last character of the text, which changes none of the calls: `parseUnixMemoryProfile_blocks`
says that there is one for each block. The flag of a call is that of `hasSlash`, which is not
whether there is a slash in the header when a tab, or a character that is negative as a `char`,
stands in front of it (`tabbed_slash`).
-/

namespace Tasan.ProcMaps

open FlagParser (nul)
open Buffer (scan scan_eq)

variable {w : ℕ} {signed : Bool} {b : List Char} {last pos : ℕ}

/-! ## Runs over lines -/

variable (w signed) in
/-- What some lines change, and the calls of `cb` for them. -/
inductive Effects : Mapping → List (List Char) → Mapping → List Call → Prop
  /-- No line. -/
  | nil {s : Mapping} : Effects s [] s []
  /-- A line, and the others. -/
  | cons {s s' s'' : Mapping} {line : List Char} {lines : List (List Char)} {new more : List Call}
    (hline : LineEffect w signed s line s' new) (hlines : Effects s' lines s'' more) :
    Effects s (line :: lines) s'' (new ++ more)

/-- The text of some lines. -/
def renderLines (lines : List (List Char)) : List Char := lines.flatMap (· ++ [newline])

theorem renderLines_cons (line : List Char) (lines : List (List Char)) :
    renderLines (line :: lines) = line ++ newline :: renderLines lines := by
  unfold renderLines
  rw [List.flatMap_cons, List.append_assoc]
  rfl

theorem renderLines_append (lines lines' : List (List Char)) :
    renderLines (lines ++ lines') = renderLines lines ++ renderLines lines' := List.flatMap_append

theorem Effects.append {s s' s'' : Mapping} {lines lines' : List (List Char)} {new more : List Call}
    (h : Effects w signed s lines s' new) (h' : Effects w signed s' lines' s'' more) :
    Effects w signed s (lines ++ lines') s'' (new ++ more) := by
  induction h with
  | nil => exact h'
  | cons hline _ ih =>
    rw [List.append_assoc]
    exact .cons hline (ih h')

theorem LineEffect.eq_nil {s s' : Mapping} {new : List Call}
    (h : LineEffect w signed s [] s' new) : new = [] := by
  generalize hline : ([] : List Char) = line at h
  cases h with
  | header => rfl
  | rss blanks => cases hline
  | other => rfl

/-- The loop makes the calls for the lines up to the NUL. -/
theorem profileLoop_lines {s s' : Mapping} {lines : List (List Char)} {new : List Call}
    (heffects : Effects w signed s lines s' new) (hnewline : ∀ line ∈ lines, newline ∉ line)
    (hdrop : b.drop pos = renderLines lines ++ [nul]) (hlast : b.length = last + 2)
    (calls : List Call) {fuel : ℕ} (hfuel : lines.length < fuel) :
    profileLoop w signed b last fuel pos s calls = .returned (calls ++ new) := by
  induction heffects generalizing pos calls fuel with
  | nil =>
    obtain ⟨fuel, rfl⟩ := Nat.exists_eq_succ_of_ne_zero (Nat.zero_lt_of_lt hfuel).ne'
    have hlength := congrArg List.length hdrop
    rw [List.length_drop, renderLines, List.flatMap_nil, List.nil_append, List.length_singleton]
      at hlength
    rw [profileLoop, if_neg (by omega), List.append_nil]
  | @cons s s' s'' line lines new more hline hlines ih =>
    obtain ⟨fuel, rfl⟩ := Nat.exists_eq_succ_of_ne_zero (Nat.zero_lt_of_lt hfuel).ne'
    rw [renderLines_cons, List.append_assoc, List.cons_append] at hdrop
    have hlength := congrArg List.length hdrop
    rw [List.length_drop, List.length_append, List.length_cons, List.length_append,
      List.length_singleton] at hlength
    rw [List.length_cons] at hfuel
    rcases Nat.lt_or_ge pos last with hlt | hge
    · have hat : LineAt b pos line (renderLines lines ++ [nul]) :=
        ⟨hdrop, hnewline line List.mem_cons_self⟩
      obtain ⟨q, left, hrun, hleft⟩ := profileLine_eq hline hat (show _ ≤ last by omega)
      have hscan : scan Fault.buffer (· ≠ newline) b q = .returned (q + left.length) :=
        scan_eq hleft.drop_eq
          (fun c hc => decide_eq_true fun heq => hleft.newline_notMem (heq ▸ hc)) (by decide)
      have hnext : b.drop (q + left.length + 1) = renderLines lines ++ [nul] :=
        Buffer.drop_succ (Buffer.drop_add hleft.drop_eq)
      rw [profileLoop, if_pos hlt, hrun, Outcome.returned_bind]
      dsimp only
      rw [hscan, Outcome.returned_bind,
        ih (fun l hl => hnewline l (List.mem_cons_of_mem _ hl)) hnext _ (by omega),
        List.append_assoc]
    · -- The last line is empty, and the loop is at its newline.
      have hline_nil : line = [] := List.eq_nil_of_length_eq_zero (by omega)
      have hlines_nil : lines = [] := by
        cases lines with
        | nil => rfl
        | cons l lines =>
          rw [renderLines_cons, List.length_append, List.length_cons] at hlength
          omega
      subst hline_nil hlines_nil
      cases hlines
      rw [profileLoop, if_neg (by omega), hline.eq_nil, List.append_nil, List.append_nil]

/-! ## The end of the text -/

/-- What is left of the last line: nothing of an empty one. -/
def cut (line : List Char) : List (List Char) := if line = [] then [] else [line.dropLast]

theorem cut_concat (line : List Char) (c : Char) : cut (line ++ [c]) = [line] := by
  unfold cut
  rw [if_neg (List.append_ne_nil_of_right_ne_nil _ (List.cons_ne_nil _ _)), List.dropLast_concat]

theorem eq_newline_of_renderLines {lines : List (List Char)} {t : List Char} {x : Char}
    (h : renderLines lines = t ++ [x]) : x = newline := by
  rcases List.eq_nil_or_concat lines with rfl | ⟨init, l, rfl⟩
  · exact absurd h.symm (List.append_ne_nil_of_right_ne_nil _ (List.cons_ne_nil _ _))
  · rw [List.concat_eq_append, renderLines_append, renderLines_cons, ← List.append_assoc] at h
    exact (List.cons.inj (List.append_inj' h rfl).2).1.symm

/-- The two stores at the end cut the last line. -/
theorem patched_eq (lines : List (List Char)) (line : List Char) {t : List Char} {x y : Char}
    (h : renderLines (lines ++ [line]) = t ++ [x, y]) :
    t ++ [newline, nul] = renderLines (lines ++ cut line) ++ [nul] := by
  rw [renderLines_append, renderLines_cons] at h
  rcases List.eq_nil_or_concat line with rfl | ⟨l, c, rfl⟩
  · have hsplit : renderLines lines ++ [newline] = (t ++ [x]) ++ [y] := by
      rw [List.append_assoc]
      exact h
    have hlines := (List.append_inj' hsplit rfl).1
    have hx := eq_newline_of_renderLines hlines
    subst hx
    calc
      t ++ [newline, nul] = t ++ [newline] ++ [nul] := List.append_cons t newline [nul]
      _ = renderLines lines ++ [nul] := by rw [hlines]
      _ = renderLines (lines ++ cut []) ++ [nul] := by rw [cut, if_pos rfl, List.append_nil]
  · have hsplit : (renderLines lines ++ l) ++ [c, newline] = t ++ [x, y] := by
      rw [← h, List.append_assoc, List.concat_eq_append, List.append_assoc]
      rfl
    have ht := (List.append_inj' hsplit rfl).1
    rw [List.concat_eq_append, cut_concat, renderLines_append, renderLines_cons,
      ← ht, List.append_assoc, List.append_assoc, List.append_assoc]
    rfl

variable (w signed) in
theorem exists_lineEffect {line : List Char} (h : ¬ rssField <+: line) (s : Mapping) :
    ∃ s', LineEffect w signed s line s' [] := by
  have hsplit : line.takeWhile isHex ++ line.dropWhile isHex = line :=
    List.takeWhile_append_dropWhile
  rcases eq_or_ne (line.takeWhile isHex) [] with hnil | hne
  · refine ⟨s, .other (fun c hc => ?_) h⟩
    have hnot := List.head?_dropWhile_not isHex line
    rw [hnil, List.nil_append] at hsplit
    rw [hsplit, Option.mem_def.mp hc] at hnot
    simpa using hnot
  · rw [← hsplit]
    refine ⟨_, .header hne (fun c hc => List.mem_takeWhile_imp hc) fun c hc => ?_⟩
    have hnot := List.head?_dropWhile_not isHex line
    rw [Option.mem_def.mp hc] at hnot
    simpa using hnot

variable (w signed) in
theorem exists_effects {lines : List (List Char)} (h : ∀ line ∈ lines, ¬ rssField <+: line)
    (s : Mapping) : ∃ s', Effects w signed s lines s' [] := by
  induction lines generalizing s with
  | nil => exact ⟨s, .nil⟩
  | cons line lines ih =>
    obtain ⟨s', hline⟩ := exists_lineEffect w signed (h line List.mem_cons_self) s
    obtain ⟨s'', hlines⟩ := ih (fun l hl => h l (List.mem_cons_of_mem _ hl)) s'
    exact ⟨s'', .cons hline hlines⟩

theorem not_rssField_cut {line : List Char} (h : ¬ rssField <+: line) :
    ∀ l ∈ cut line, ¬ rssField <+: l := by
  intro l hl
  unfold cut at hl
  split_ifs at hl
  · exact absurd hl List.not_mem_nil
  · rw [List.mem_singleton.mp hl]
    exact fun hpre => h (hpre.trans (List.dropLast_prefix line))

/-! ## Blocks -/

/-- A block of the text. -/
structure Block where
  /-- The address, in hexadecimal digits. -/
  address : List Char
  /-- The rest of the header. -/
  rest : List Char
  /-- The fields in front of that of what is resident. -/
  fields : List (List Char)
  /-- The blanks in that field. -/
  blanks : ℕ
  /-- The size of what is resident, in decimal digits. -/
  rss : List Char
  /-- The fields behind it. -/
  later : List (List Char)

/-- The header. -/
def Block.header (B : Block) : List Char := B.address ++ B.rest

/-- The field of what is resident, with its unit. -/
def Block.rssLine (B : Block) (unit : List Char) : List Char :=
  rssField ++ (List.replicate B.blanks ' ' ++ (B.rss ++ unit))

/-- The header and the fields in front of that of what is resident. -/
def Block.start (B : Block) : List (List Char) := B.header :: B.fields

/-- The lines of a block. -/
def Block.lines (B : Block) : List (List Char) :=
  B.start ++ B.rssLine [' ', 'k', 'B'] :: B.later

/-- The text of some blocks. -/
def renderBlocks (blocks : List Block) : List Char := renderLines (blocks.flatMap Block.lines)

/-- The block is one of a complete text. -/
structure Block.Ok (B : Block) : Prop where
  /-- The header starts with an address. -/
  address_ok : B.address ≠ [] ∧ ∀ c ∈ B.address, isHex c = true
  /-- The address ends there. -/
  rest_ok : ∀ c ∈ B.rest.head?, isHex c = false
  /-- A field in front of that of what is resident does not start with a hexadecimal digit. -/
  fields_ok : ∀ line ∈ B.fields, (∀ c ∈ line.head?, isHex c = false) ∧ ¬ rssField <+: line
  /-- The size is a number. -/
  rss_ok : B.rss ≠ [] ∧ ∀ c ∈ B.rss, isDecimal c = true
  /-- There is only one field of what is resident. -/
  later_ok : ∀ line ∈ B.later, ¬ rssField <+: line
  /-- A line is one. -/
  newline_ok : ∀ line ∈ B.lines, newline ∉ line

/-- The call for a block. -/
def Block.call (w : ℕ) (signed : Bool) (B : Block) : Call :=
  (valueOf 16 B.address % 2^w, valueOf 10 B.rss * 1024 % 2^w, hasSlash signed B.header)

variable {B : Block}

theorem effects_fields {lines : List (List Char)}
    (h : ∀ line ∈ lines, (∀ c ∈ line.head?, isHex c = false) ∧ ¬ rssField <+: line) (s : Mapping) :
    Effects w signed s lines s [] := by
  induction lines with
  | nil => exact .nil
  | cons line lines ih =>
    have hline := h line List.mem_cons_self
    exact .cons (.other hline.1 hline.2) (ih fun l hl => h l (List.mem_cons_of_mem _ hl))

theorem Block.Ok.effects_start (h : B.Ok) (s : Mapping) :
    Effects w signed s B.start ⟨valueOf 16 B.address % 2^w, hasSlash signed B.header⟩ [] :=
  .cons (.header h.address_ok.1 h.address_ok.2 h.rest_ok) (effects_fields h.fields_ok _)

theorem Block.Ok.effect_rss (h : B.Ok) (s : Mapping) {unit : List Char}
    (hunit : ∀ c ∈ unit.head?, isDecimal c = false) :
    LineEffect w signed s (B.rssLine unit) s
      [(s.start, valueOf 10 B.rss * 1024 % 2^w, s.file)] :=
  .rss B.blanks h.rss_ok.1 h.rss_ok.2 hunit

theorem unit_ok (unit : List Char) : ∀ c ∈ (' ' :: unit).head?, isDecimal c = false := by
  rintro c ⟨⟩
  decide

variable (w signed) in
theorem Block.Ok.effects_block (h : B.Ok) (s : Mapping) {unit : List Char}
    (hunit : ∀ c ∈ unit.head?, isDecimal c = false) {later : List (List Char)}
    (hlater : ∀ line ∈ later, ¬ rssField <+: line) :
    ∃ s', Effects w signed s (B.start ++ B.rssLine unit :: later) s' [B.call w signed] := by
  obtain ⟨s', heffects⟩ := exists_effects w signed hlater
    ⟨valueOf 16 B.address % 2^w, hasSlash signed B.header⟩
  exact ⟨s', (h.effects_start s).append (.cons (h.effect_rss _ hunit) heffects)⟩

variable (w signed) in
theorem effects_blocks {blocks : List Block} (h : ∀ B ∈ blocks, B.Ok) (s : Mapping) :
    ∃ s', Effects w signed s (blocks.flatMap Block.lines) s'
      (blocks.map (Block.call w signed)) := by
  induction blocks generalizing s with
  | nil => exact ⟨s, .nil⟩
  | cons B blocks ih =>
    have hB := h B List.mem_cons_self
    obtain ⟨s₁, hblock⟩ := hB.effects_block w signed s (unit_ok _) hB.later_ok
    obtain ⟨s₂, hblocks⟩ := ih (fun C hC => h C (List.mem_cons_of_mem _ hC)) s₁
    exact ⟨s₂, hblock.append hblocks⟩

variable (w signed) in
/-- The last line of a block can be cut. -/
theorem Block.Ok.exists_cut (h : B.Ok) : ∃ lines line, B.lines = lines ++ [line] ∧
    ∀ s, ∃ s', Effects w signed s (lines ++ cut line) s' [B.call w signed] := by
  unfold Block.lines
  rcases List.eq_nil_or_concat B.later with hnil | ⟨init, l, hconcat⟩
  · -- The last line is the field of what is resident, whose unit loses a letter.
    have hunit : B.rssLine [' ', 'k', 'B'] = B.rssLine [' ', 'k'] ++ ['B'] := by
      unfold Block.rssLine
      rw [List.append_assoc, List.append_assoc, List.append_assoc]
      rfl
    have hcut : cut (B.rssLine [' ', 'k', 'B']) = [B.rssLine [' ', 'k']] := by
      rw [hunit, cut_concat]
    refine ⟨B.start, B.rssLine [' ', 'k', 'B'], by rw [hnil], fun s => ?_⟩
    rw [hcut]
    exact h.effects_block w signed s (unit_ok _) fun _ hl => absurd hl List.not_mem_nil
  · have hlater := h.later_ok
    rw [hconcat, List.concat_eq_append] at hlater
    refine ⟨B.start ++ B.rssLine [' ', 'k', 'B'] :: init, l,
      by rw [hconcat, List.concat_eq_append, List.append_assoc]; rfl, fun s => ?_⟩
    rw [List.append_assoc, List.cons_append]
    refine h.effects_block w signed s (unit_ok _) fun line hline => ?_
    rcases List.mem_append.mp hline with hinit | hcut
    · exact hlater line (List.mem_append_left _ hinit)
    · exact not_rssField_cut (hlater l (List.mem_append_right _ List.mem_cons_self)) line hcut

theorem newline_notMem_cut {line : List Char} (h : newline ∉ line) :
    ∀ l ∈ cut line, newline ∉ l := by
  intro l hl
  unfold cut at hl
  split_ifs at hl
  · exact absurd hl List.not_mem_nil
  · rw [List.mem_singleton.mp hl]
    exact fun hmem => h (List.mem_of_mem_dropLast hmem)

theorem two_le_length_renderBlocks {blocks : List Block} (h : ∀ B ∈ blocks, B.Ok)
    (hne : blocks ≠ []) : 2 ≤ (renderBlocks blocks).length := by
  obtain ⟨B, blocks, rfl⟩ := List.exists_cons_of_ne_nil hne
  have hpos := List.length_pos_of_ne_nil (h B List.mem_cons_self).address_ok.1
  unfold renderBlocks Block.lines Block.start
  rw [List.flatMap_cons, List.cons_append, List.cons_append, renderLines_cons, List.length_append,
    List.length_cons, Block.header, List.length_append]
  omega

/-- The calls for a complete text. -/
theorem parseUnixMemoryProfile_blocks {blocks : List Block} (h : ∀ B ∈ blocks, B.Ok) {fuel : ℕ}
    (hfuel : (renderBlocks blocks).length < fuel) :
    parseUnixMemoryProfile w signed fuel (renderBlocks blocks) =
      .returned (blocks.map (Block.call w signed)) := by
  rcases List.eq_nil_or_concat blocks with rfl | ⟨init, B, rfl⟩
  · rfl
  · rw [List.concat_eq_append] at *
    obtain ⟨t, x, y, htext⟩ := exists_append_two (two_le_length_renderBlocks h
      (List.append_ne_nil_of_right_ne_nil _ (List.cons_ne_nil _ _)))
    obtain ⟨calls, hcalls⟩ := parseUnixMemoryProfile_returned w signed (renderBlocks (init ++ [B]))
    obtain ⟨lines, line, hlines, hcut⟩ :=
      (h B (List.mem_append_right _ List.mem_cons_self)).exists_cut w signed
    obtain ⟨s, hinit⟩ := effects_blocks w signed
      (fun C hC => h C (List.mem_append_left _ hC)) ⟨0, false⟩
    obtain ⟨s', hB⟩ := hcut s
    have hall : (init ++ [B]).flatMap Block.lines =
        init.flatMap Block.lines ++ lines ++ [line] := by
      rw [List.flatMap_append, List.flatMap_singleton, hlines, List.append_assoc]
    have heffects := hinit.append hB
    rw [← List.append_assoc] at heffects
    have hnewline : ∀ l ∈ init.flatMap Block.lines ++ lines ++ cut line, newline ∉ l := by
      have hold : ∀ l ∈ init.flatMap Block.lines ++ lines ++ [line], newline ∉ l := by
        intro l hl
        rw [← hall] at hl
        obtain ⟨C, hC, hl⟩ := List.mem_flatMap.mp hl
        exact (h C hC).newline_ok l hl
      intro l hl
      rcases List.mem_append.mp hl with hl | hl
      · exact hold l (List.mem_append_left _ hl)
      · exact newline_notMem_cut
          (hold line (List.mem_append_right _ List.mem_cons_self)) l hl
    have hpatched := patched_eq (init.flatMap Block.lines ++ lines) line
      (by rw [← hall]; exact htext)
    -- With enough fuel for all lines the loop makes the calls, and the result is that with less.
    have hrun : ∀ fuel > (init.flatMap Block.lines ++ lines ++ cut line).length,
        parseUnixMemoryProfile w signed fuel (t ++ [x, y]) =
          .returned ([] ++ (init.map (Block.call w signed) ++ [B.call w signed])) := by
      intro fuel hfuel
      rw [parseUnixMemoryProfile_append]
      refine profileLoop_lines heffects hnewline ?_ List.length_append [] hfuel
      rw [List.drop_zero, hpatched]
    rw [htext] at hcalls hfuel ⊢
    have hlarge := hcalls ((t ++ [x, y]).length +
      (init.flatMap Block.lines ++ lines ++ cut line).length + 1) (by omega)
    rw [hrun _ (by omega)] at hlarge
    rw [hcalls fuel hfuel, ← hlarge, List.map_append]
    rfl

theorem hasSlash_of_above {header : List Char} (h : ∀ c ∈ header, isAbove signed c = true) :
    hasSlash signed header = decide ('/' ∈ header) := by
  unfold hasSlash
  rw [List.takeWhile_eq_self_iff.mpr h, List.contains_eq_mem]

/-- `ParseUnixMemoryProfile` finishes inside any buffer, and calls `cb` once for each block of a
complete text. The flag says whether there is a slash in the header, in front of every character
that is not above the newline. -/
theorem parseUnixMemoryProfile_spec (w : ℕ) (signed : Bool) :
    (∀ smaps, ∃ calls, ∀ fuel > smaps.length,
      parseUnixMemoryProfile w signed fuel smaps = .returned calls) ∧
    (∀ blocks, (∀ B ∈ blocks, Block.Ok B) → ∀ fuel > (renderBlocks blocks).length,
      parseUnixMemoryProfile w signed fuel (renderBlocks blocks) =
        .returned (blocks.map fun B => (valueOf 16 B.address % 2^w, valueOf 10 B.rss * 1024 % 2^w,
          (B.header.takeWhile (isAbove signed)).contains '/'))) ∧
    ∀ header : List Char, (∀ c ∈ header, isAbove signed c = true) →
      (header.takeWhile (isAbove signed)).contains '/' = decide ('/' ∈ header) :=
  ⟨parseUnixMemoryProfile_returned w signed,
    fun _ h _ hfuel => parseUnixMemoryProfile_blocks h hfuel, fun _ h => hasSlash_of_above h⟩

/-- A block whose header has a tab in front of a slash. -/
def tabbedBlock : Block := ⟨['1', '0'], [' ', Char.ofNat 9, '/'], [], 1, ['4'], []⟩

theorem tabbedBlock_ok : tabbedBlock.Ok where
  address_ok := ⟨by decide, List.all_eq_true.mp (by decide)⟩
  rest_ok := by
    rintro c ⟨⟩
    decide
  fields_ok := fun _ h => absurd h List.not_mem_nil
  rss_ok := ⟨by decide, List.all_eq_true.mp (by decide)⟩
  later_ok := fun _ h => absurd h List.not_mem_nil
  newline_ok := by decide

/-- Its call does not say that there is a slash. -/
theorem tabbed_slash : tabbedBlock.Ok ∧ '/' ∈ tabbedBlock.header ∧ ∀ w signed,
    ∀ fuel > (renderBlocks [tabbedBlock]).length,
      parseUnixMemoryProfile w signed fuel (renderBlocks [tabbedBlock]) =
        .returned [(16 % 2^w, 4096 % 2^w, false)] := by
  refine ⟨tabbedBlock_ok, by decide, fun w signed fuel hfuel => ?_⟩
  have hslash : hasSlash signed tabbedBlock.header = false := by cases signed <;> decide
  rw [parseUnixMemoryProfile_blocks (List.forall_mem_singleton.mpr tabbedBlock_ok) hfuel,
    List.map_singleton, Block.call, hslash]
  rfl

end Tasan.ProcMaps
