import BenchLx.Tools.BootCommand

/-!
# The results on their way back

Reference: `rootfs/bench/bench.sh`, `main` of `tools/fpga.py` with `--until`, and the end of
`platforms/hw`. The script on the target prints a line before and a line after the benchmark. The
host prints the lines of the serial console until it sees the second one, and then cuts out of its
log what stands between the two lines, without the lines that start with `# `. This finds the output
of the benchmark unless that contains the second line itself (`results_eq_iff`).
-/

namespace BenchLx.Fpga

/-- A line without its end. -/
abbrev Line := List Char

/-! ## The target -/

/-- The first line of `bench.sh`. -/
def startLine : Line := ">===Starting_benchmarks===".toList

/-- The last line of `bench.sh`. -/
def doneLine : Line := "<===Benchmarks_done===".toList

/-! ## The log -/

/-- A line that is read from the serial console: a text, or bytes that cannot be decoded and what is
printed for them. -/
inductive SerialLine
  | text (line : Line)
  | undecodable (printed : Line)
deriving DecidableEq, Repr

/-- `str.isspace()`. -/
def isSpace (c : Char) : Bool :=
  (9 ≤ c.toNat && c.toNat ≤ 13) || (28 ≤ c.toNat && c.toNat ≤ 32) || c.toNat = 0x85 ||
    c.toNat = 0xA0 || c.toNat = 0x1680 || (0x2000 ≤ c.toNat && c.toNat ≤ 0x200A) ||
    c.toNat = 0x2028 || c.toNat = 0x2029 || c.toNat = 0x202F || c.toNat = 0x205F ||
    c.toNat = 0x3000

/-- `str.rstrip()`. -/
def rstrip (s : Line) : Line := s.rdropWhile isSpace

/-- What is printed for a line. -/
def SerialLine.printed : SerialLine → Line
  | .text line => rstrip line
  | .undecodable printed => printed

/-- The loop of `main` that waits for a specific string: what it prints for the lines read. -/
def monitor (untilText : Line) : List SerialLine → List Line
  | [] => []
  | .text line :: lines =>
    let line := rstrip line
    if untilText <:+: line then [line] else line :: monitor untilText lines
  | .undecodable printed :: lines => printed :: monitor untilText lines

/-! ## The results -/

/-- The lines that do not start with `# `. -/
def kept (log : List Line) : List Line :=
  log.filter fun line => !"# ".toList.isPrefixOf line

/-- No line has a NUL. -/
def IsText (log : List Line) : Prop := ∀ line ∈ log, Char.ofNat 0 ∉ line

instance (log : List Line) : Decidable (IsText log) := List.decidableBAll _ log

/-- `grep -v '^# '`. A log with a NUL is a binary file for `grep`; how many of its lines it prints
before it finds out is left open. -/
def grep (log : List Line) : Option (List Line) :=
  if IsText log then some (kept log) else none

/-- `awk '/START/ {p=1}; p; /DONE/ {p=0}'`. -/
def awk : (p : Bool) → List Line → List Line
  | _, [] => []
  | p, line :: log =>
    let p := p || startLine <:+: line
    let rest := awk (p && !(doneLine <:+: line : Bool)) log
    if p then line :: rest else rest

/-- The commands that make `res.txt` from the log. -/
def results (log : List Line) : Option (List Line) :=
  (grep log).map fun lines => ((awk false lines).drop 1).dropLast

/-! ## One stage after the other -/

/-- The loop goes on behind lines that do not contain the string. -/
theorem monitor_append {untilText : Line} {lines : List SerialLine}
    (h : ∀ l ∈ lines, ¬ untilText <:+: l.printed) (rest : List SerialLine) :
    monitor untilText (lines ++ rest)
      = lines.map SerialLine.printed ++ monitor untilText rest := by
  induction lines with
  | nil => rfl
  | cons l lines ih =>
    have hl := h l (by simp)
    have htail := ih fun l' hl' => h l' (by simp [hl'])
    cases l with
    | text line =>
      rw [List.cons_append, monitor, if_neg (show ¬ untilText <:+: rstrip line from hl), htail]
      rfl
    | undecodable printed =>
      rw [List.cons_append, monitor, htail]
      rfl

theorem monitor_of_infix {untilText line : Line} (h : untilText <:+: rstrip line)
    (rest : List SerialLine) : monitor untilText (.text line :: rest) = [rstrip line] := by
  rw [monitor]
  exact if_pos h

theorem kept_append (log log' : List Line) : kept (log ++ log') = kept log ++ kept log' :=
  List.filter_append ..

theorem kept_singleton (line : Line) :
    kept [line] = if "# ".toList.isPrefixOf line then [] else [line] := by
  cases h : "# ".toList.isPrefixOf line
  · exact List.filter_cons_of_pos (by rw [h]; rfl)
  · exact List.filter_cons_of_neg (by rw [h]; exact Bool.false_ne_true)

theorem mem_of_mem_kept {line : Line} {log : List Line} (h : line ∈ kept log) : line ∈ log :=
  List.mem_of_mem_filter h

/-- Nothing is printed before the first marker. -/
theorem awk_false_append {log : List Line} (h : ∀ l ∈ log, ¬ startLine <:+: l)
    (rest : List Line) : awk false (log ++ rest) = awk false rest := by
  induction log with
  | nil => rfl
  | cons l log ih =>
    have hl := h l (by simp)
    rw [List.cons_append, awk, ← ih fun l' hl' => h l' (by simp [hl'])]
    simp [hl]

/-- Everything is printed before the second marker. -/
theorem awk_true_append {log : List Line} (h : ∀ l ∈ log, ¬ doneLine <:+: l)
    (rest : List Line) : awk true (log ++ rest) = log ++ awk true rest := by
  induction log with
  | nil => rfl
  | cons l log ih =>
    have hl := h l (by simp)
    rw [List.cons_append, awk, List.cons_append, ← ih fun l' hl' => h l' (by simp [hl'])]
    simp [hl]

theorem kept_startLine : kept [startLine] = [startLine] := by decide

theorem kept_doneLine : kept [doneLine] = [doneLine] := by decide

theorem awk_startLine (log : List Line) :
    awk false (startLine :: log) = startLine :: awk true log := by
  have hdone : ¬ doneLine <:+: startLine := by decide
  rw [awk]
  simp [hdone]

/-- What is cut out of a log behind the first marker. -/
theorem results_of_startLine {earlier log : List Line} (h : ∀ l ∈ earlier, ¬ startLine <:+: l)
    (htext : IsText (earlier ++ startLine :: log)) :
    results (earlier ++ startLine :: log) = some (awk true (kept log)).dropLast := by
  have hearlier : ∀ l ∈ kept earlier, ¬ startLine <:+: l :=
    fun l hl => h l (mem_of_mem_kept hl)
  rw [results, grep, if_pos htext, Option.map_some, ← List.singleton_append,
    kept_append, kept_append, kept_startLine,
    awk_false_append hearlier, List.singleton_append, awk_startLine, List.drop_one, List.tail_cons]

/-- A marker keeps standing alone when its line end is stripped. -/
theorem rstrip_append {marker eol : Line} (hmarker : rstrip marker = marker)
    (heol : ∀ c ∈ eol, isSpace c = true) : rstrip (marker ++ eol) = marker := by
  rw [rstrip, rdropWhile_append hmarker, List.rdropWhile_eq_nil_iff.mpr heol, List.append_nil]

theorem rstrip_startLine : rstrip startLine = startLine := by decide

theorem rstrip_doneLine : rstrip doneLine = doneLine := by decide

/-! ## From the target to the results -/

section Body

variable {body : List SerialLine} (after : List SerialLine) {eol : Line}

/-- Without the second marker in between everything is cut out. -/
theorem results_of_forall (h : ∀ l ∈ body, ¬ doneLine <:+: l.printed)
    (heol : ∀ c ∈ eol, isSpace c = true) :
    (awk true (kept (monitor doneLine (body ++ .text (doneLine ++ eol) :: after)))).dropLast
      = kept (body.map SerialLine.printed) := by
  have hstrip := rstrip_append rstrip_doneLine heol
  have hbody : ∀ l ∈ kept (body.map SerialLine.printed), ¬ doneLine <:+: l := by
    intro l hl
    obtain ⟨l', hl', rfl⟩ := List.mem_map.mp (mem_of_mem_kept hl)
    exact h l' hl'
  have hawk : awk true [doneLine] = [doneLine] := by simp [awk]
  rw [monitor_append h, monitor_of_infix (by rw [hstrip]), hstrip, kept_append, kept_doneLine,
    awk_true_append hbody, hawk, List.dropLast_concat]

/-- With it, lines of the benchmark are missing, unless none would have been kept. -/
theorem results_of_exists (h : ∃ l ∈ body, doneLine <:+: l.printed)
    (hbody : ∀ printed, .undecodable printed ∈ body → ¬ doneLine <:+: printed) :
    (awk true (kept (monitor doneLine (body ++ .text (doneLine ++ eol) :: after)))).dropLast
        = kept (body.map SerialLine.printed) ↔ kept (body.map SerialLine.printed) = [] := by
  obtain ⟨l, hfind⟩ : ∃ l, body.find? (fun l => doneLine <:+: l.printed) = some l := by
    rw [← Option.isSome_iff_exists, List.find?_isSome]
    simpa using h
  obtain ⟨hl, earlier, later, rfl, hearlier⟩ := List.find?_eq_some_iff_append.mp hfind
  have hearlier' : ∀ l ∈ earlier, ¬ doneLine <:+: l.printed := fun l hl => by
    simpa using hearlier l hl
  have hkept : ∀ l ∈ kept (earlier.map SerialLine.printed), ¬ doneLine <:+: l := by
    intro l hl
    obtain ⟨l', hl', rfl⟩ := List.mem_map.mp (mem_of_mem_kept hl)
    exact hearlier' l' hl'
  have hmarker := of_decide_eq_true hl
  cases l with
  | undecodable printed => exact absurd hmarker (hbody printed (by simp))
  | text line =>
    have hmap : (earlier ++ .text line :: later).map SerialLine.printed
        = earlier.map SerialLine.printed ++ ([rstrip line] ++ later.map SerialLine.printed) := by
      rw [List.map_append, List.map_cons, List.singleton_append, SerialLine.printed]
    rw [hmap, List.append_assoc, List.cons_append, monitor_append hearlier',
      monitor_of_infix hmarker, kept_append, awk_true_append hkept, kept_append, kept_append,
      kept_singleton]
    -- the line with the marker is kept or not
    split
    · have hawk : awk true [] = [] := rfl
      rw [hawk, List.append_nil, List.nil_append]
      constructor
      · intro heq
        have hlen := congrArg List.length heq
        rw [List.length_dropLast, List.length_append] at hlen
        exact List.eq_nil_of_length_eq_zero (by rw [List.length_append]; omega)
      · intro hnil
        rw [hnil, (List.append_eq_nil_iff.mp hnil).1]
        rfl
    · have hawk : awk true [rstrip line] = [rstrip line] := by simp [awk]
      rw [hawk, List.dropLast_concat]
      simp

end Body

/-- **The results.** Let no line that is printed before contain the first line of `bench.sh`, no
line of the console before it contain the first or the last one, and no line of the benchmark that
cannot be decoded print the last one; and let the log have no NUL. Then `res.txt` has the lines that
the benchmark has printed, stripped at their ends and without those that start with `# `, exactly
when none of them contains the last line or none of them is to be kept. -/
theorem results_eq_iff (earlier log : List Line) (before body after : List SerialLine)
    (eol eol' : Line) (hearlier : ∀ l ∈ earlier, ¬ startLine <:+: l)
    (hbefore : ∀ l ∈ before, ¬ startLine <:+: l.printed ∧ ¬ doneLine <:+: l.printed)
    (heol : ∀ c ∈ eol, isSpace c = true) (heol' : ∀ c ∈ eol', isSpace c = true)
    (hbody : ∀ printed, .undecodable printed ∈ body → ¬ doneLine <:+: printed)
    (hlog : log = earlier ++ monitor doneLine
      (before ++ .text (startLine ++ eol) :: (body ++ .text (doneLine ++ eol') :: after)))
    (htext : IsText log) :
    results log = some (kept (body.map SerialLine.printed)) ↔
      (∀ l ∈ body, ¬ doneLine <:+: l.printed) ∨
        kept (body.map SerialLine.printed) = [] := by
  have hstrip := rstrip_append rstrip_startLine heol
  have hfirst : ∀ l ∈ earlier ++ before.map SerialLine.printed, ¬ startLine <:+: l := by
    refine List.forall_mem_append.mpr ⟨hearlier, fun l hl => ?_⟩
    obtain ⟨l', hl', rfl⟩ := List.mem_map.mp hl
    exact (hbefore l' hl').1
  have hmonitor : monitor doneLine
      (.text (startLine ++ eol) :: (body ++ .text (doneLine ++ eol') :: after))
      = startLine :: monitor doneLine (body ++ .text (doneLine ++ eol') :: after) := by
    rw [monitor, hstrip, if_neg (by decide)]
  rw [monitor_append fun l hl => (hbefore l hl).2, hmonitor, ← List.append_assoc] at hlog
  subst hlog
  rw [results_of_startLine hfirst htext, Option.some_inj]
  by_cases h : ∀ l ∈ body, ¬ doneLine <:+: l.printed
  · rw [results_of_forall after h heol']
    exact ⟨fun _ => .inl h, fun _ => rfl⟩
  · push Not at h
    rw [results_of_exists after h hbody]
    refine ⟨.inr, fun hor => hor.resolve_left fun hall => ?_⟩
    obtain ⟨l, hl, hdone⟩ := h
    exact hall l hl hdone

/-- A serial console ends its lines with both characters. -/
theorem isSpace_of_mem_eol : ∀ c ∈ ['\r', '\n'], isSpace c = true :=
  List.forall_mem_cons.mpr ⟨rfl, List.forall_mem_singleton.mpr rfl⟩

/-- A benchmark that prints two lines, one of them a comment. -/
theorem results_eq_two :
    results (["loading".toList] ++ monitor doneLine
        ([.text "Linux".toList] ++ .text (startLine ++ ['\r', '\n']) ::
          ([.text "# avg".toList, .text "42 7".toList]
            ++ .text (doneLine ++ ['\r', '\n']) :: [])))
      = some (kept
        (List.map SerialLine.printed [.text "# avg".toList, .text "42 7".toList])) :=
  (results_eq_iff ["loading".toList] _ [.text "Linux".toList]
    [.text "# avg".toList, .text "42 7".toList] [] ['\r', '\n'] ['\r', '\n'] (by decide)
    (by decide) isSpace_of_mem_eol isSpace_of_mem_eol (by simp) rfl (by decide)).mpr
    (.inl (by decide))

end BenchLx.Fpga
