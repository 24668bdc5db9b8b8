import Pros.Console.Logging
import Pros.Console.Proofs.VGAProofs
import Pros.Lib.Proofs.LogProofs

/-!
# Proofs: logging

Between calls the text colour is light grey, and the object is related to the terminal by `ConsoleInv`. A badge
changes the colour and changes it back, so that every call keeps this (`LoggerInv.perform`).
-/

namespace Pros

variable {fuel : ℕ} {s : Logger} {c : Console} {color : U8} {format text : CString} {parameters : List VaArg}

/-! ## Formats -/

/-- Arguments too many change nothing. -/
theorem output_append {ps : List Piece} {args : List VaArg} (h : Supplies ps args) (extra : List VaArg) :
    output ps (args ++ extra) = output ps args := by
  induction ps generalizing args with
  | nil => rw [output, output]
  | cons p ps ih =>
    cases p with
    | literal c => exact congrArg (c.val :: ·) (ih h)
    | percent => exact congrArg (percentSign.val :: ·) (ih h)
    | verbatim rest => exact congrArg (rest.map Subtype.val ++ ·) (ih h)
    | directive d =>
      cases args with
      | nil => cases h
      | cons a args => exact congrArg (d.text a ++ ·) (ih (List.forall₂_cons.mp h).2)

theorem printf_out (stack : Memory ℕ) {args : List VaArg} (hargs : Supplies (pieces format) args)
    (hbegin : args <+: parameters) (hfuel : format.length + 32 ≤ fuel) :
    ∃ printed, printf stack fuel format parameters = some printed ∧
      printed.out = output (pieces format) parameters := by
  obtain ⟨extra, rfl⟩ := hbegin
  have hloop : ∃ printed, printf stack fuel ([] ++ format) (args ++ extra) = some printed ∧
      printed.out = [] ++ output (pieces format) args ∧ printed.parameters = extra ∧
      ∀ p ∈ printed.visited, p ≤ ([] ++ format).length :=
    printfLoop_eq stack [] format _ rfl hargs rfl (by simp) (by omega) (by omega) (by omega)
  obtain ⟨printed, hprinted, hout, -, -⟩ := hloop
  exact ⟨printed, hprinted, by rw [hout, output_append hargs, List.nil_append]⟩

theorem pieces_plain (htext : ∀ d ∈ text, d ≠ percentSign) : pieces text = text.map .literal := by
  have h := pieces_literal [] htext
  rwa [List.append_nil, pieces, List.append_nil] at h

theorem supplies_plain (htext : ∀ d ∈ text, d ≠ percentSign) : Supplies (pieces text) [] := by
  have h := directives_literal text []
  rw [Supplies, pieces_plain htext, ← List.append_nil (text.map Piece.literal), h]
  exact List.Forall₂.nil

theorem output_plain (htext : ∀ d ∈ text, d ≠ percentSign) (parameters : List VaArg) :
    output (pieces text) parameters = text.map Subtype.val := by
  have h := output_literal text [] parameters
  rwa [List.append_nil, output, List.append_nil, ← pieces_plain htext] at h

/-- A directive takes an argument, if the round over it ends. -/
theorem takes_of_printfRound {stack : Memory ℕ} {pre rest : CString} {p p' : PrintState} {ch : CChar} {d : Directive}
    (hpos : p.pos = pre.length) (hd : Directive.of ch = some d)
    (hround : printfRound stack fuel (pre ++ (percentSign :: ch :: rest)) p = some p') :
    ∃ a args, p.parameters = a :: args ∧ d.Takes a := by
  have hnext := charAt_append pre (percentSign :: ch :: rest) 1
  have hpercent : percentSign.val = 0x25 := rfl
  have hc : (ch.val == 0x25) = false := by
    unfold Directive.of at hd
    by_contra h
    rw [Bool.not_eq_false, beq_iff_eq] at h
    simp [h] at hd
  simp only [printfRound, hpos, charAt_append_zero, Option.bind_eq_bind, Option.bind_some,
    hpercent, ne_eq, not_true_eq_false, if_false, hnext, charAt, Option.map_some, hc, PrintState.move,
    Bool.false_eq_true] at hround
  unfold Directive.of at hd
  cases hparams : p.parameters with
  | nil => split_ifs at hd hround <;> simp [PrintState.argInt, PrintState.argStr, hparams] at hround
  | cons a args =>
    refine ⟨a, args, rfl, ?_⟩
    cases a <;> split_ifs at hd hround <;> obtain rfl := Option.some.inj hd <;>
      first
      | exact trivial
      | simp [PrintState.argInt, PrintState.argStr, hparams] at hround

/-- The arguments that the loop took are the arguments of the directives. -/
theorem supplies_of_printfLoop {stack : Memory ℕ} (pre rest : CString) (p : PrintState) {p' : PrintState} {left : ℕ}
    (hpos : p.pos = pre.length) (hfuel : rest.length < fuel) (hf : 32 ≤ fuel)
    (hloop : printfLoop stack fuel (pre ++ rest) left p = some p') :
    ∃ args, Supplies (pieces rest) args ∧ args <+: p.parameters := by
  induction left generalizing pre rest p with
  | zero => cases hloop
  | succ left ih =>
    -- After a round the loop goes on behind its characters.
    have hgo : ∀ (c : CChar) (mid tail : CString) (q : PrintState), rest = c :: mid ++ tail →
        printfRound stack fuel (pre ++ rest) p = some q → q.pos = pre.length + (mid.length + 1) →
        ∃ args, Supplies (pieces tail) args ∧ args <+: q.parameters := by
      rintro c mid tail q rfl hround hq
      have hchar : charAt (pre ++ (c :: mid ++ tail)) p.pos = some c.val := by
        rw [hpos, charAt_append_zero, List.cons_append, charAt_cons]
      rw [printfLoop_succ left hchar hround, ← List.append_assoc] at hloop
      rw [List.length_append] at hfuel
      rw [← List.length_cons (a := c), ← List.length_append] at hq
      exact ih _ _ _ hq (by omega) hloop
    rcases format_cases rest with rfl | ⟨c, text, tail, rfl, hc, htext, htail⟩ |
      ⟨text, tail, rfl, htext, htail⟩ | ⟨c, d, tail, rfl, hd⟩ | ⟨tail, rfl, htail⟩
    · exact ⟨[], List.Forall₂.nil, List.nil_prefix⟩
    · rw [List.length_append, List.length_cons] at hfuel
      obtain ⟨args, hargs, hbegin⟩ :=
        hgo c text tail _ rfl (printfRound_literal hpos hc htext htail (by omega)) rfl
      refine ⟨args, ?_, hbegin⟩
      rwa [Supplies, pieces_literal tail (List.forall_mem_cons.mpr ⟨hc, htext⟩), directives_literal]
    · rw [List.length_append, List.length_cons, List.length_cons] at hfuel
      obtain ⟨args, hargs, hbegin⟩ :=
        hgo percentSign (percentSign :: text) tail _ rfl (printfRound_percent hpos htext htail (by omega)) rfl
      refine ⟨args, ?_, hbegin⟩
      rw [Supplies, List.cons_append, List.cons_append, pieces_percent, pieces_literal tail htext]
      exact (congrArg (List.Forall₂ Directive.Takes · args) (directives_literal text _)).mpr hargs
    · have hround : ∃ q, printfRound stack fuel (pre ++ (percentSign :: c :: tail)) p = some q := by
        rw [printfLoop, hpos, charAt_append_zero, charAt_cons] at hloop
        simp only [Option.bind_eq_bind, Option.bind_some, ne_eq, percentSign.property, not_false_eq_true,
          if_true] at hloop
        obtain ⟨q, hq, -⟩ := Option.bind_eq_some_iff.mp hloop
        exact ⟨q, hq⟩
      obtain ⟨q, hround⟩ := hround
      obtain ⟨a, params, hparams, ha⟩ := takes_of_printfRound hpos hd hround
      obtain ⟨args, hargs, hbegin⟩ :=
        hgo percentSign [c] tail _ rfl (printfRound_directive hpos hd hparams ha hf) rfl
      refine ⟨a :: args, ?_, ?_⟩
      · rw [Supplies, pieces_directive tail hd]
        exact List.Forall₂.cons ha hargs
      · rw [hparams]
        exact List.cons_prefix_cons.mpr ⟨rfl, hbegin⟩
    · refine ⟨[], ?_, List.nil_prefix⟩
      rw [Supplies, pieces_verbatim htail]
      exact List.Forall₂.nil

theorem supplies_of_printf {stack : Memory ℕ} {printed : PrintState} (hfuel : format.length + 32 ≤ fuel)
    (h : printf stack fuel format parameters = some printed) :
    ∃ args, Supplies (pieces format) args ∧ args <+: parameters :=
  supplies_of_printfLoop [] format _ rfl (by omega) (by omega) h

/-! ## The terminal -/

theorem textColor_print (c : Console) (data : List U8) :
    (data.foldl (fun c ch => c.step (.putChar ch)) c).textColor = c.textColor := by
  induction data generalizing c with
  | nil => rfl
  | cons ch data ih =>
    rw [List.foldl_cons, ih, Console.step]
    split_ifs <;> rfl

/-- Text in the colour that is in use. -/
theorem say_of_color (h : c.textColor = color) (data : List U8) :
    c.say ⟨color, data⟩ = data.foldl (fun c ch => c.step (.putChar ch)) c := by
  subst h
  rfl

theorem textColor_say (c : Console) (span : Span) : (c.say span).textColor = span.color :=
  textColor_print _ span.text

/-! ## `print` -/

theorem ConsoleInv.print {v : VGA} (h : ConsoleInv v c) (data : List U8) :
    ConsoleInv (print v data) (data.foldl (fun c ch => c.step (.putChar ch)) c) := by
  have hrun := h.run (data.map .putChar)
  rwa [List.foldl_map, List.foldl_map] at hrun

theorem serialPrint_eq (sent : List (U16 × U8)) (data : List U8) :
    serialPrint sent data = (data.map (Prod.mk 0x3F8)).reverse ++ sent := by
  induction data generalizing sent with
  | nil => rfl
  | cons byte data ih =>
    rw [serialPrint, List.foldl_cons, ← serialPrint, ih, List.map_cons, List.reverse_cons, List.append_assoc]
    rfl

/-! ## `clear` -/

open VGA in
theorem cell_clearRows (m : TextMemory) (entry : U16) (n : ℕ) {i j : ℕ} (hi : i < n) (hj : j < 80) :
    ((List.range n).foldl (fun m i => clearRow m (i * 80) 80 entry) m).cell (i * 80 + j) = entry := by
  induction n with
  | zero => exact absurd hi (Nat.not_lt_zero i)
  | succ n ih =>
    rw [List.range_succ, List.foldl_append, List.foldl_cons, List.foldl_nil, cell_clearRow]
    by_cases hin : i = n
    · rw [if_pos (by omega)]
    · rw [if_neg (by omega), ih (by omega)]

open VGA in
theorem written_clearRows (m : TextMemory) (entry : U16) (n : ℕ) {k : ℕ}
    (hk : k ∈ ((List.range n).foldl (fun m i => clearRow m (i * 80) 80 entry) m).written) :
    k < n * 80 ∨ k ∈ m.written := by
  induction n with
  | zero => exact Or.inr hk
  | succ n ih =>
    rw [List.range_succ, List.foldl_append, List.foldl_cons, List.foldl_nil] at hk
    rcases written_clearRow hk with hk | hk
    · exact (ih hk).imp_left fun hlt => by omega
    · exact Or.inl (by omega)

theorem ConsoleInv.clear {v : VGA} (h : ConsoleInv v c) : ConsoleInv v.clear c.clear := by
  have hwidth : v.width.toNat = 80 := by rw [h.width]; rfl
  have hheight : v.height.toNat = 25 := by rw [h.height]; rfl
  have hblank : VGA.vgaEntry 0x20 v.color = c.blank := by rw [h.color]; rfl
  have hclear : v.clear =
      { v with memory := (List.range 25).foldl (fun m i => VGA.clearRow m (i * 80) 80 c.blank) v.memory } := by
    rw [VGA.clear, hwidth, hheight, hblank]
  rw [hclear]
  refine ⟨⟨⟨h.width, h.height, h.commandPort, h.dataPort⟩, ?_, fun k hk => ?_⟩, h.textColor, h.backgroundColor,
    h.color, h.cursor⟩
  · exact h.shows.clear fun i hi j hj => cell_clearRows v.memory c.blank 25 hi hj
  · exact (written_clearRows v.memory c.blank 25 hk).elim id (h.written k)

/-! ## Calls -/

/-- The object and the terminal agree, and the text colour is known. -/
structure LoggerInv (color : U8) (s : Logger) (c : Console) : Prop where
  console : ConsoleInv s.vga c
  textColor : c.textColor = color

theorem LoggerInv.setTextColor (h : LoggerInv color s c) (color' : U8) :
    LoggerInv color' (s.setTextColor color') (c.step (.setTextColor color')) :=
  ⟨h.console.step (.setTextColor color'), rfl⟩

theorem LoggerInv.printf (h : LoggerInv color s c) (stack : Memory ℕ) {args : List VaArg}
    (hargs : Supplies (pieces format) args) (hbegin : args <+: parameters) (hfuel : format.length + 32 ≤ fuel) :
    ∃ s', s.printf stack fuel format parameters false = some s' ∧
      LoggerInv color s' (c.say ⟨color, output (pieces format) parameters⟩) ∧ s'.sent = s.sent := by
  obtain ⟨printed, hprinted, hout⟩ := printf_out stack hargs hbegin hfuel
  refine ⟨{ s with vga := print s.vga printed.out }, ?_, ⟨?_, textColor_say c _⟩, rfl⟩
  · rw [Logger.printf, hprinted]
    rfl
  · rw [say_of_color h.textColor, ← hout]
    exact h.console.print printed.out

theorem LoggerInv.printf_plain (h : LoggerInv color s c) (stack : Memory ℕ) (text : CString)
    (htext : ∀ d ∈ text, d ≠ percentSign) (parameters : List VaArg) (hfuel : text.length + 32 ≤ fuel) :
    ∃ s', s.printf stack fuel text parameters false = some s' ∧
      LoggerInv color s' (c.say ⟨color, text.map Subtype.val⟩) ∧ s'.sent = s.sent := by
  have hprintf := h.printf stack (supplies_plain htext) (List.nil_prefix (l := parameters)) hfuel
  rwa [output_plain htext] at hprintf

theorem printf_serial (stack : Memory ℕ) (s : Logger) {args : List VaArg} (hargs : Supplies (pieces format) args)
    (hbegin : args <+: parameters) (hfuel : format.length + 32 ≤ fuel) :
    s.printf stack fuel format parameters true =
      some { s with sent := ((output (pieces format) parameters).map (Prod.mk 0x3F8)).reverse ++ s.sent } := by
  obtain ⟨printed, hprinted, hout⟩ := printf_out stack hargs hbegin hfuel
  rw [Logger.printf, hprinted, ← hout, ← serialPrint_eq]
  rfl

/-- A badge is printed in its colour, and the colour is changed back. -/
theorem LoggerInv.badge (h : LoggerInv VGA_COLOR_LIGHT_GREY s c) (stack : Memory ℕ) {name : CString}
    (hname : ∀ d ∈ name, d ≠ percentSign) (color : U8) (parameters : List VaArg) (hfuel : name.length + 34 ≤ fuel) :
    ∃ s', s.badge stack fuel name color parameters = some s' ∧
      LoggerInv VGA_COLOR_LIGHT_GREY s'
        (((c.say ⟨VGA_COLOR_LIGHT_GREY, bytesOf "["⟩).say ⟨color, name.map Subtype.val⟩).say
          ⟨VGA_COLOR_LIGHT_GREY, bytesOf "] "⟩) ∧
      s'.sent = s.sent := by
  obtain ⟨s₁, h₁, hinv₁, hsent₁⟩ := h.printf_plain stack (literal "[") (by simp [literal, percentSign]) parameters
    (show 1 + 32 ≤ fuel by omega)
  obtain ⟨s₂, h₂, hinv₂, hsent₂⟩ := (hinv₁.setTextColor color).printf_plain stack name hname parameters
    (show name.length + 32 ≤ fuel by omega)
  obtain ⟨s₃, h₃, hinv₃, hsent₃⟩ := (hinv₂.setTextColor VGA_COLOR_LIGHT_GREY).printf_plain stack (literal "] ")
    (by simp [literal, percentSign]) parameters (show 2 + 32 ≤ fuel by omega)
  refine ⟨s₃, ?_, hinv₃, by rw [hsent₃, Logger.setTextColor, hsent₂, Logger.setTextColor, hsent₁]⟩
  simp only [Logger.badge, Option.bind_eq_bind, h₁, Option.bind_some, h₂, h₃]

theorem LoggerInv.logLevel (h : LoggerInv VGA_COLOR_LIGHT_GREY s c) (stack : Memory ℕ) (level : U32)
    (parameters : List VaArg) (hfuel : 49 ≤ fuel) :
    ∃ s', s.logLevel stack fuel level parameters = some s' ∧
      LoggerInv VGA_COLOR_LIGHT_GREY s' ((badgeSpans level).foldl Console.say c) ∧ s'.sent = s.sent := by
  unfold Logger.logLevel badgeSpans
  split_ifs
  · exact h.badge stack (by simp [literal, percentSign]) VGA_COLOR_GREEN parameters (show 5 + 34 ≤ fuel by omega)
  · exact h.badge stack (by simp [literal, percentSign]) VGA_COLOR_LIGHT_RED parameters (show 6 + 34 ≤ fuel by omega)
  · exact h.badge stack (by simp [literal, percentSign]) VGA_COLOR_RED parameters (show 5 + 34 ≤ fuel by omega)
  · exact ⟨s, rfl, h, rfl⟩

theorem LoggerInv.log (h : LoggerInv VGA_COLOR_LIGHT_GREY s c) (stack : Memory ℕ) (level : U32) {args : List VaArg}
    (hargs : Supplies (pieces format) args) (hbegin : args <+: parameters) (hfuel : format.length + 49 ≤ fuel) :
    ∃ s', s.log stack fuel level format parameters = some s' ∧
      LoggerInv VGA_COLOR_LIGHT_GREY s' (c.perform (.log level format parameters)) ∧ s'.sent = s.sent := by
  obtain ⟨s₁, h₁, hinv₁, hsent₁⟩ := h.logLevel stack level parameters (show 49 ≤ fuel by omega)
  obtain ⟨s₂, h₂, hinv₂, hsent₂⟩ := hinv₁.printf stack hargs hbegin (show format.length + 32 ≤ fuel by omega)
  obtain ⟨s₃, h₃, hinv₃, hsent₃⟩ := hinv₂.printf_plain stack (literal "\n") (by simp [literal, percentSign]) parameters
    (show 1 + 32 ≤ fuel by omega)
  refine ⟨s₃, ?_, ?_, by rw [hsent₃, hsent₂, hsent₁]⟩
  · simp only [Logger.log, Option.bind_eq_bind, h₁, Option.bind_some, h₂, h₃]
  · rw [Console.perform, Console.line, lineSpans, List.foldl_append, List.foldl_append]
    exact hinv₃

theorem printf_serial_plain (stack : Memory ℕ) (s : Logger) (text : CString) (htext : ∀ d ∈ text, d ≠ percentSign)
    (parameters : List VaArg) (hfuel : text.length + 32 ≤ fuel) :
    s.printf stack fuel text parameters true =
      some { s with sent := ((text.map Subtype.val).map (Prod.mk 0x3F8)).reverse ++ s.sent } := by
  rw [printf_serial stack s (supplies_plain htext) List.nil_prefix hfuel, output_plain htext]

theorem klogLevel_eq (stack : Memory ℕ) (s : Logger) (level : U32) (parameters : List VaArg) (hfuel : 49 ≤ fuel) :
    s.klogLevel stack fuel level parameters =
      some { s with sent := ((badgeText level).map (Prod.mk 0x3F8)).reverse ++ s.sent } := by
  unfold Logger.klogLevel badgeText
  split_ifs
  · exact printf_serial_plain stack s _ (by simp [literal, percentSign]) parameters (show 16 + 32 ≤ fuel by omega)
  · exact printf_serial_plain stack s _ (by simp [literal, percentSign]) parameters (show 17 + 32 ≤ fuel by omega)
  · exact printf_serial_plain stack s _ (by simp [literal, percentSign]) parameters (show 16 + 32 ≤ fuel by omega)
  · exact printf_serial_plain stack s _ (by simp [literal, percentSign]) parameters (show 16 + 32 ≤ fuel by omega)
  · rfl

theorem klog_eq (stack : Memory ℕ) (s : Logger) (level : U32) {args : List VaArg}
    (hargs : Supplies (pieces format) args) (hbegin : args <+: parameters) (hfuel : format.length + 49 ≤ fuel) :
    s.klog stack fuel level format parameters =
      some { s with
        sent := ((LogCall.klog level format parameters).transcript.map (Prod.mk 0x3F8)).reverse ++ s.sent } := by
  have hend := fun s => printf_serial_plain stack s (literal "\n") (by simp [literal, percentSign]) parameters
    (show 1 + 32 ≤ fuel by omega)
  simp only [Logger.klog, Option.bind_eq_bind, klogLevel_eq stack s level parameters (show 49 ≤ fuel by omega),
    Option.bind_some, printf_serial stack _ hargs hbegin (show format.length + 32 ≤ fuel by omega), hend,
    LogCall.transcript, lineText, List.map_append, List.reverse_append, List.append_assoc]
  rfl

/-- What every call keeps, and what it adds to the transcript. -/
theorem LoggerInv.perform (h : LoggerInv VGA_COLOR_LIGHT_GREY s c) (stack : Memory ℕ) {call : LogCall}
    (hcall : call.Supplied) (hfuel : call.size + 49 ≤ fuel) :
    ∃ s', call.perform stack fuel s = some s' ∧ LoggerInv VGA_COLOR_LIGHT_GREY s' (c.perform call) ∧
      s'.sent = (call.transcript.map (Prod.mk 0x3F8)).reverse ++ s.sent := by
  cases call with
  | log level format parameters =>
    obtain ⟨args, hargs, hbegin⟩ := hcall
    exact h.log stack level hargs hbegin hfuel
  | klog level format parameters =>
    obtain ⟨args, hargs, hbegin⟩ := hcall
    exact ⟨_, klog_eq stack s level hargs hbegin hfuel, ⟨h.console, h.textColor⟩, rfl⟩
  | __log format parameters =>
    obtain ⟨args, hargs, hbegin⟩ := hcall
    exact h.printf stack hargs hbegin (by dsimp only [LogCall.size] at hfuel; omega)
  | clear => exact ⟨_, rfl, ⟨h.console.clear, h.textColor⟩, rfl⟩

theorem LoggerInv.performAll (h : LoggerInv VGA_COLOR_LIGHT_GREY s c) (stack : Memory ℕ) {calls : List LogCall}
    (hcalls : ∀ call ∈ calls, call.Supplied) (hfuel : ∀ call ∈ calls, call.size + 49 ≤ fuel) :
    ∃ s', LogCall.performAll stack fuel s calls = some s' ∧
      LoggerInv VGA_COLOR_LIGHT_GREY s' (calls.foldl Console.perform c) ∧
      s'.sent = ((calls.flatMap LogCall.transcript).map (Prod.mk 0x3F8)).reverse ++ s.sent := by
  induction calls generalizing s c with
  | nil => exact ⟨s, rfl, h, rfl⟩
  | cons call calls ih =>
    rw [List.forall_mem_cons] at hcalls hfuel
    obtain ⟨s₁, h₁, hinv₁, hsent₁⟩ := h.perform stack hcalls.1 hfuel.1
    obtain ⟨s₂, h₂, hinv₂, hsent₂⟩ := ih hinv₁ hcalls.2 hfuel.2
    refine ⟨s₂, ?_, hinv₂, ?_⟩
    · rw [LogCall.performAll, List.foldlM_cons, h₁, Option.bind_eq_bind, Option.bind_some]
      exact h₂
    · rw [hsent₂, hsent₁, List.flatMap_cons, List.map_append, List.reverse_append, List.append_assoc]

theorem LoggerInv.new (cell : ℕ → U16) : LoggerInv VGA_COLOR_LIGHT_GREY ⟨.new cell, []⟩ (.new cell) :=
  ⟨ConsoleInv.new cell, rfl⟩

/-- Whatever is logged, in any order and with the arguments that the formats take, the screen shows the last rows of
    the terminal that has the badges in their colours and all other text in light grey, and the serial port has been
    sent the transcript and nothing else. -/
theorem logging_transcript (stack : Memory ℕ) (cell : ℕ → U16) {calls : List LogCall}
    (hcalls : ∀ call ∈ calls, call.Supplied) (hfuel : ∀ call ∈ calls, call.size + 49 ≤ fuel) :
    ∃ s, LogCall.performAll stack fuel ⟨.new cell, []⟩ calls = some s ∧
      Displays s.vga (calls.foldl Console.perform (.new cell)) ∧
      s.sent.reverse = (calls.flatMap LogCall.transcript).map (Prod.mk 0x3F8) := by
  obtain ⟨s, hs, hinv, hsent⟩ := (LoggerInv.new cell).performAll stack hcalls hfuel
  refine ⟨s, hs, hinv.console.displays, ?_⟩
  rw [hsent, List.append_nil, List.reverse_reverse]

/-- What `kmain` does first, and a number for the serial port. -/
def bootCalls : List LogCall :=
  [.clear, .log 0 (literal "Initializing GDT") [], .klog 3 (literal "0x%x") [.int 0xAA55]]

theorem bootCalls_supplied : ∀ call ∈ bootCalls, call.Supplied := by
  have hliteral : Supplies (pieces (literal "Initializing GDT")) [] := supplies_plain (by simp [literal, percentSign])
  have hhex : Supplies (pieces (literal "0x%x")) [.int 0xAA55] := List.Forall₂.cons trivial List.Forall₂.nil
  simp only [bootCalls, List.forall_mem_cons, LogCall.Supplied]
  exact ⟨trivial, ⟨[], hliteral, List.prefix_rfl⟩, ⟨_, hhex, List.prefix_rfl⟩,
    fun _ hnil => absurd hnil List.not_mem_nil⟩

theorem logging_transcript_boot :
    ∃ s, LogCall.performAll { byte := fun _ => 0 } 65 ⟨.new fun _ => 0, []⟩ bootCalls = some s ∧
      Displays s.vga (bootCalls.foldl Console.perform (.new fun _ => 0)) ∧
      s.sent.reverse = (bootCalls.flatMap LogCall.transcript).map (Prod.mk 0x3F8) :=
  logging_transcript _ _ bootCalls_supplied (by decide +kernel)

/-! ## Lines -/

/-- A cell of `clear`, and of a row that a line leaves empty. -/
def blankCell : U16 := VGA.vgaEntry 0x20 (VGA.vgaColor VGA_COLOR_LIGHT_GREY VGA_COLOR_BLACK)

theorem backgroundColor_say (c : Console) (span : Span) : (c.say span).backgroundColor = c.backgroundColor := by
  have hprint : ∀ (data : List U8) (c : Console),
      (data.foldl (fun c ch => c.step (.putChar ch)) c).backgroundColor = c.backgroundColor := by
    intro data
    induction data with
    | nil => intro c; rfl
    | cons ch data ih =>
      intro c
      rw [List.foldl_cons, ih, Console.step]
      split_ifs <;> rfl
  exact hprint span.text _

/-- Text that does not reach the end of the row. -/
theorem terminal_print (blank : U16) {data : List U8} (hcolor : c.textColor = color)
    (hback : c.backgroundColor = VGA_COLOR_BLACK) (hprint : ∀ ch ∈ data, 0x20 ≤ ch.toInt)
    (hw : c.terminal.col + data.length < 80) :
    (data.foldl (fun c ch => c.step (.putChar ch)) c).terminal =
      (data.map fun ch => VGA.vgaEntry ch (VGA.vgaColor color VGA_COLOR_BLACK)).foldl
        (fun t a => t.put 80 a blank) c.terminal := by
  induction data generalizing c with
  | nil => rfl
  | cons ch data ih =>
    rw [List.forall_mem_cons] at hprint
    rw [List.length_cons] at hw
    have hne : ch ≠ 0x0A := by
      rintro rfl
      exact absurd hprint.1 (by decide)
    have hput : ∀ blank', c.terminal.put 80 (c.glyph ch) blank' =
        { c.terminal.write (c.glyph ch) with col := c.terminal.col + 1 } := fun _ => if_pos (by omega)
    have hstep : c.step (.putChar ch) = { c with terminal := c.terminal.put 80 (c.glyph ch) blank } := by
      rw [Console.step, if_neg hne, if_pos hprint.1, hput, hput]
    have hcol : (c.terminal.put 80 (c.glyph ch) blank).col = c.terminal.col + 1 := by rw [hput]
    have hw' : (c.terminal.put 80 (c.glyph ch) blank).col + data.length < 80 := by omega
    have hprinted := ih (c := { c with terminal := c.terminal.put 80 (c.glyph ch) blank }) hcolor hback hprint.2 hw'
    rw [List.foldl_cons, hstep, hprinted, List.map_cons, List.foldl_cons, ← hcolor, ← hback]
    rfl

theorem terminal_says (blank : U16) {spans : List Span} (hback : c.backgroundColor = VGA_COLOR_BLACK)
    (hprint : ∀ s ∈ spans, ∀ ch ∈ s.text, 0x20 ≤ ch.toInt) (hw : c.terminal.col + (lineCells spans).length < 80) :
    (spans.foldl Console.say c).terminal = (lineCells spans).foldl (fun t a => t.put 80 a blank) c.terminal := by
  induction spans generalizing c with
  | nil => rfl
  | cons span spans ih =>
    rw [List.forall_mem_cons] at hprint
    have hcells : lineCells (span :: spans) =
        (span.text.map fun ch => VGA.vgaEntry ch (VGA.vgaColor span.color VGA_COLOR_BLACK)) ++ lineCells spans := rfl
    rw [hcells, List.length_append, List.length_map] at hw
    have hsay : (c.say span).terminal =
        (span.text.map fun ch => VGA.vgaEntry ch (VGA.vgaColor span.color VGA_COLOR_BLACK)).foldl
          (fun t a => t.put 80 a blank) c.terminal :=
      terminal_print (c := c.step (.setTextColor span.color)) blank rfl hback hprint.1
        (show c.terminal.col + span.text.length < 80 by omega)
    have hcol : (c.say span).terminal.col = c.terminal.col + span.text.length := by
      rw [hsay, Terminal.foldl_put (by rw [List.length_map]; omega), List.length_map]
    rw [List.foldl_cons, ih ((backgroundColor_say c span).trans hback) hprint.2 (by omega), hsay, hcells,
      List.foldl_append]

theorem backgroundColor_says (c : Console) (spans : List Span) :
    (spans.foldl Console.say c).backgroundColor = c.backgroundColor := by
  induction spans generalizing c with
  | nil => rfl
  | cons span spans ih => rw [List.foldl_cons, ih, backgroundColor_say]

/-- The terminal holds these lines, in the colours of the constructor. -/
structure LinesInv (c : Console) (ls : List (List U16)) : Prop where
  lines : c.terminal.Lines 80 25 blankCell ls
  backgroundColor : c.backgroundColor = VGA_COLOR_BLACK

/-- A call that writes a line has a row of its own. -/
theorem LinesInv.perform {ls : List (List U16)} (h : LinesInv c ls) {call : LogCall} (hline : call.IsLine) :
    LinesInv (c.perform call) (ls ++ call.lines) := by
  cases call with
  | log level format parameters =>
    have hback := backgroundColor_says c (lineSpans level (output (pieces format) parameters))
    have hperform : c.perform (.log level format parameters) =
        ((lineSpans level (output (pieces format) parameters)).foldl Console.say c).say
          ⟨VGA_COLOR_LIGHT_GREY, [0x0A]⟩ := by
      rw [Console.perform, Console.line, List.foldl_append]
      rfl
    have hterminal := terminal_says (c := c) blankCell h.backgroundColor hline.printable
      (by rw [h.lines.col_eq, Nat.zero_add]; exact hline.short)
    rw [hperform]
    generalize (lineSpans level (output (pieces format) parameters)).foldl Console.say c = d at hback hterminal ⊢
    have hblank : (d.step (.setTextColor VGA_COLOR_LIGHT_GREY)).blank = blankCell := by
      rw [Console.blank, Console.glyph, blankCell, Console.step, hback, h.backgroundColor]
    refine ⟨?_, by rw [backgroundColor_say, hback, h.backgroundColor]⟩
    show (d.terminal.newline (d.step (.setTextColor VGA_COLOR_LIGHT_GREY)).blank).Lines 80 25 blankCell _
    rw [hblank, hterminal]
    exact h.lines.append hline.short
  | klog level format parameters =>
    show LinesInv c (ls ++ [])
    rw [List.append_nil]
    exact h
  | __log format parameters => exact absurd hline id
  | clear => exact absurd hline id

theorem LinesInv.performAll {ls : List (List U16)} (h : LinesInv c ls) {calls : List LogCall}
    (hlines : ∀ call ∈ calls, call.IsLine) :
    LinesInv (calls.foldl Console.perform c) (ls ++ calls.flatMap LogCall.lines) := by
  induction calls generalizing c ls with
  | nil =>
    rw [List.flatMap_nil, List.append_nil]
    exact h
  | cons call calls ih =>
    rw [List.forall_mem_cons] at hlines
    rw [List.foldl_cons, List.flatMap_cons, ← List.append_assoc]
    exact ih (h.perform hlines.1) hlines.2

theorem LinesInv.new (cell : ℕ → U16) : LinesInv (Console.new cell).clear [] := by
  refine ⟨⟨rfl, rfl, rfl, fun i _ j _ => ?_⟩, rfl⟩
  rw [Console.clear, Terminal.cell_clear (Nat.zero_le i)]
  rfl

/-- After the screen has been cleared, every call of `log` whose text fits has a row of its own, and the screen shows
    the last 24 of them. -/
theorem log_screen (stack : Memory ℕ) (cell : ℕ → U16) {calls : List LogCall}
    (hcalls : ∀ call ∈ calls, call.Supplied) (hfuel : ∀ call ∈ calls, call.size + 49 ≤ fuel)
    (hlines : ∀ call ∈ calls, call.IsLine) :
    ∃ s, LogCall.performAll stack fuel ⟨VGA.clear (.new cell), []⟩ calls = some s ∧
      ∀ i < 25, ∀ j < 80, s.vga.memory.cell (i * 80 + j) =
        ((((calls.flatMap LogCall.lines).drop ((calls.flatMap LogCall.lines).length - 24))[i]?.getD [])[j]?).getD
          blankCell := by
  have hclear : LoggerInv VGA_COLOR_LIGHT_GREY ⟨VGA.clear (.new cell), []⟩ (Console.clear (.new cell)) :=
    ⟨(ConsoleInv.new cell).clear, rfl⟩
  obtain ⟨s, hs, hinv, -⟩ := hclear.performAll stack hcalls hfuel
  refine ⟨s, hs, fun i hi j hj => ?_⟩
  have hscreen := ((LinesInv.new cell).performAll hlines).lines
  rw [hinv.console.displays.cells i hi j hj, hscreen.screen hi hj, List.nil_append, Nat.add_sub_add_right _ 1 24]

/-- The first line of `kmain`. -/
theorem log_screen_boot :
    ∃ s, LogCall.performAll { byte := fun _ => 0 } 65 ⟨VGA.clear (.new fun _ => 0), []⟩
        [.log 0 (literal "Initializing GDT") []] = some s ∧
      ∀ i < 25, ∀ j < 80, s.vga.memory.cell (i * 80 + j) =
        ((((([.log 0 (literal "Initializing GDT") []] : List LogCall).flatMap LogCall.lines).drop
          ((([.log 0 (literal "Initializing GDT") []] : List LogCall).flatMap LogCall.lines).length - 24))[i]?.getD
            [])[j]?).getD blankCell := by
  have hcall : ∀ call ∈ ([.log 0 (literal "Initializing GDT") []] : List LogCall),
      call.Supplied ∧ call.size + 49 ≤ 65 ∧ call.IsLine := by
    intro call hcall
    obtain rfl := List.mem_singleton.mp hcall
    exact ⟨⟨[], supplies_plain (by simp [literal, percentSign]), List.prefix_rfl⟩, by decide +kernel,
      ⟨by decide +kernel, by decide +kernel⟩⟩
  exact log_screen _ _ (fun call h => (hcall call h).1) (fun call h => (hcall call h).2.1)
    (fun call h => (hcall call h).2.2)

/-! ## Arguments -/

theorem supplies_of_logger {stack : Memory ℕ} {s' : Logger} {serial : Bool} (hfuel : format.length + 32 ≤ fuel)
    (h : s.printf stack fuel format parameters serial = some s') :
    ∃ args, Supplies (pieces format) args ∧ args <+: parameters := by
  obtain ⟨printed, hprinted, -⟩ := Option.bind_eq_some_iff.mp h
  exact supplies_of_printf hfuel hprinted

theorem supplied_of_perform {stack : Memory ℕ} {call : LogCall} {s' : Logger} (hfuel : call.size + 49 ≤ fuel)
    (h : call.perform stack fuel s = some s') : call.Supplied := by
  cases call with
  | log level format parameters =>
    obtain ⟨s₁, -, h₁⟩ := Option.bind_eq_some_iff.mp h
    obtain ⟨s₂, h₂, -⟩ := Option.bind_eq_some_iff.mp h₁
    exact supplies_of_logger (by dsimp only [LogCall.size] at hfuel; omega) h₂
  | klog level format parameters =>
    obtain ⟨s₁, -, h₁⟩ := Option.bind_eq_some_iff.mp h
    obtain ⟨s₂, h₂, -⟩ := Option.bind_eq_some_iff.mp h₁
    exact supplies_of_logger (by dsimp only [LogCall.size] at hfuel; omega) h₂
  | __log format parameters => exact supplies_of_logger (by dsimp only [LogCall.size] at hfuel; omega) h
  | clear => trivial

theorem supplied_of_performAll {stack : Memory ℕ} {calls : List LogCall} {s' : Logger}
    (hfuel : ∀ call ∈ calls, call.size + 49 ≤ fuel) (h : LogCall.performAll stack fuel s calls = some s') :
    ∀ call ∈ calls, call.Supplied := by
  induction calls generalizing s with
  | nil => exact fun _ hcall => absurd hcall List.not_mem_nil
  | cons call calls ih =>
    rw [List.forall_mem_cons] at hfuel ⊢
    rw [LogCall.performAll, List.foldlM_cons] at h
    obtain ⟨s₁, h₁, h₂⟩ := Option.bind_eq_some_iff.mp h
    exact ⟨supplied_of_perform hfuel.1 h₁, ih hfuel.2 h₂⟩

/-- A run of logging takes no argument that is not there, or is of another type, exactly if every call has one for
    each directive of its format. -/
theorem logging_defined_iff (stack : Memory ℕ) (cell : ℕ → U16) {calls : List LogCall}
    (hfuel : ∀ call ∈ calls, call.size + 49 ≤ fuel) :
    (∃ s, LogCall.performAll stack fuel ⟨.new cell, []⟩ calls = some s) ↔ ∀ call ∈ calls, call.Supplied := by
  refine ⟨fun ⟨s, hs⟩ => supplied_of_performAll hfuel hs, fun hcalls => ?_⟩
  obtain ⟨s, hs, -⟩ := (LoggerInv.new cell).performAll stack hcalls hfuel
  exact ⟨s, hs⟩

theorem logging_defined_iff_boot :
    (∃ s, LogCall.performAll { byte := fun _ => 0 } 65 ⟨.new fun _ => 0, []⟩ bootCalls = some s) ↔
      ∀ call ∈ bootCalls, call.Supplied :=
  logging_defined_iff _ _ (by decide +kernel)

/-! ## `panic` -/

/-- Without arguments, the text of a format is not longer than the format, and is the format only if nothing in it is
    special. -/
theorem output_plain_iff (message : CString) (h : Supplies (pieces message) []) :
    (output (pieces message) []).length ≤ message.length ∧
      (output (pieces message) [] = message.map Subtype.val ↔ ∀ p ∈ pieces message, p.IsPlain) := by
  fun_induction pieces message with
  | case1 => simp [output]
  | case2 => simp [output, Piece.IsPlain]
  | case3 c _ => simp [output, Piece.IsPlain]
  | case4 rest ih =>
    -- One of the two signs is not printed.
    have hlen := (ih h).1
    refine ⟨?_, fun heq => ?_, fun hplain => absurd (hplain _ List.mem_cons_self) id⟩
    · simp only [output, List.length_cons]
      omega
    · have := congrArg List.length heq
      simp only [output, List.length_cons, List.length_map] at this
      omega
  | case5 d rest _ k _ _ => cases h
  | case6 d rest _ _ => simp [output, Piece.IsPlain]
  | case7 c d rest _ ih =>
    obtain ⟨hlen, hiff⟩ := ih h
    refine ⟨by simpa only [output, List.length_cons, Nat.add_le_add_iff_right] using hlen, ?_⟩
    rw [output, List.map_cons, List.cons.injEq, List.forall_mem_cons, ← hiff]
    simp [Piece.IsPlain]

theorem directives_of_plain {ps : List Piece} (h : ∀ p ∈ ps, p.IsPlain) : Supplies ps [] := by
  induction ps with
  | nil => exact List.Forall₂.nil
  | cons p ps ih =>
    rw [List.forall_mem_cons] at h
    cases p with
    | literal c => exact ih h.2
    | verbatim rest => exact ih h.2
    | percent => exact absurd h.1 id
    | directive d => exact absurd h.1 id

/-- The calls of `panic`. -/
def panicCalls (message : CString) : List LogCall :=
  [.klog 2 (literal "Kernel panic!") [], .klog 2 message [], .log 2 (literal "Kernel panic!") [], .log 2 message []]

theorem panic_eq (stack : Memory ℕ) (s : Logger) (message : CString) :
    s.panic stack fuel message = LogCall.performAll stack fuel s (panicCalls message) := by
  simp only [Logger.panic, LogCall.performAll, panicCalls, List.foldlM_cons, List.foldlM_nil, LogCall.perform,
    Option.bind_eq_bind, Option.pure_def]
  cases s.klog stack fuel 2 (literal "Kernel panic!") [] with
  | none => rfl
  | some s => simp

/-- From any state that logging reaches, `panic` shows its message on the screen and at the serial port exactly if the
    message has no directive and no `"%%"` in it. -/
theorem panic_shows_iff (stack : Memory ℕ) (cell : ℕ → U16) {calls : List LogCall} {message : CString}
    (hfuel : ∀ call ∈ calls, call.size + 49 ≤ fuel) (hmessage : message.length + 62 ≤ fuel)
    (hs : LogCall.performAll stack fuel ⟨.new cell, []⟩ calls = some s) :
    (∃ s', s.panic stack fuel message = some s' ∧
        PanicShows (calls.foldl Console.perform (.new cell)) s message s') ↔
      ∀ p ∈ pieces message, p.IsPlain := by
  have hinv : LoggerInv VGA_COLOR_LIGHT_GREY s (calls.foldl Console.perform (.new cell)) := by
    obtain ⟨s₁, h₁, hinv₁, -⟩ := (LoggerInv.new cell).performAll stack (supplied_of_performAll hfuel hs) hfuel
    rw [hs] at h₁
    exact Option.some.inj h₁ ▸ hinv₁
  have hannounce : output (pieces (literal "Kernel panic!")) [] = bytesOf "Kernel panic!" :=
    output_plain (by simp [literal, percentSign]) []
  have hfuel' : ∀ call ∈ panicCalls message, call.size + 49 ≤ fuel := by
    have hlen : (literal "Kernel panic!").length = 13 := rfl
    simp only [panicCalls, List.forall_mem_cons, LogCall.size, hlen]
    exact ⟨by omega, by omega, by omega, by omega, fun _ hnil => absurd hnil List.not_mem_nil⟩
  have htranscript : (panicCalls message).flatMap LogCall.transcript =
      lineText 2 (bytesOf "Kernel panic!") ++ lineText 2 (output (pieces message) []) := by
    rw [← hannounce]
    simp only [panicCalls, List.flatMap_cons, List.flatMap_nil, LogCall.transcript, List.append_nil]
  rw [panic_eq]
  constructor
  · rintro ⟨s', hs', hshows⟩
    have hcalls := supplied_of_performAll hfuel' hs'
    obtain ⟨s₁, h₁, -, hsent⟩ := hinv.performAll stack hcalls hfuel'
    obtain rfl := Option.some.inj (h₁.symm.trans hs')
    obtain ⟨args, hargs, hbegin⟩ := hcalls (.klog 2 message []) (by simp [panicCalls])
    obtain rfl := List.prefix_nil.mp hbegin
    refine (output_plain_iff message hargs).2.mp ?_
    have hport := hshows.port
    rw [hsent, List.reverse_append, List.reverse_reverse, htranscript, List.append_cancel_left_eq] at hport
    have hlines := List.append_cancel_left (List.map_injective_iff.mpr (Prod.mk_right_injective 0x3F8) hport)
    exact List.append_cancel_left (List.append_cancel_right hlines)
  · intro hplain
    have hargs := directives_of_plain hplain
    have houtput := (output_plain_iff message hargs).2.mpr hplain
    have hcalls : ∀ call ∈ panicCalls message, call.Supplied := by
      have hliteral : Supplies (pieces (literal "Kernel panic!")) [] := supplies_plain (by simp [literal, percentSign])
      simp only [panicCalls, List.forall_mem_cons, LogCall.Supplied]
      exact ⟨⟨[], hliteral, List.prefix_rfl⟩, ⟨[], hargs, List.prefix_rfl⟩, ⟨[], hliteral, List.prefix_rfl⟩,
        ⟨[], hargs, List.prefix_rfl⟩, fun _ hnil => absurd hnil List.not_mem_nil⟩
    obtain ⟨s', hs', hinv', hsent⟩ := hinv.performAll stack hcalls hfuel'
    refine ⟨s', hs', ?_, ?_⟩
    · have hscreen := hinv'.console.displays
      simp only [panicCalls, List.foldl_cons, List.foldl_nil, Console.perform, hannounce, houtput] at hscreen
      exact hscreen
    · rw [hsent, List.reverse_append, List.reverse_reverse, htranscript, houtput]

/-- A message that ends in a `'%'`. -/
theorem panic_shows_full :
    (∃ s', (⟨.new fun _ => 0, []⟩ : Logger).panic { byte := fun _ => 0 } 74 (literal "disk is 99%") = some s' ∧
        PanicShows (.new fun _ => 0) ⟨.new fun _ => 0, []⟩ (literal "disk is 99%") s') ↔
      ∀ p ∈ pieces (literal "disk is 99%"), p.IsPlain :=
  panic_shows_iff _ _ (fun _ hcall => absurd hcall List.not_mem_nil) (by decide +kernel) rfl

end Pros
