import Parley.Proofs.Blocks

/-!
# The first error of a script

A script that is refused is refused at one line. Either that line cannot be
followed after the lines in front of it, or it opens a block that ends without a
text. Both are said here of the lines themselves: which of them are directives,
which open blocks and which blocks have texts.

The lines in front of a place leave a draft open, or none. `Opened` describes
this draft by the line that opened it and the lines since, and one line more
keeps the description.
-/

namespace Parley.Script

open Text

/-! ## What lines say -/

theorem said_nil : said [] = ([] : List Directive).map .ok := rfl

/-- Lines leave no choice of the directives that they say. -/
theorem eq_of_map_ok {directives others : List Directive}
    (h : directives.map (Except.ok (ε := Fault)) = others.map .ok) : directives = others :=
  List.map_injective_iff.mpr (fun _ _ => Except.ok.inj) h

theorem said_singleton (raw : List Char) :
    said [raw] = [] ∨ (∃ fault, said [raw] = [.error fault]) ∨
      ∃ directive, said [raw] = [.ok directive] := by
  cases hline : trim (stripComment raw) with
  | nil => simp [said, hline]
  | cons c cs => cases hread : Directive.read (c :: cs) <;> simp [said, contentOf, hline, hread]

namespace Directive

theorem exists_of_isNode {directive : Directive} (h : directive.isNode = true) :
    ∃ kind label, directive = .node kind label := by
  cases directive <;> simp_all [isNode]

/-- A line on its own does not end a block. -/
theorem ne_of_read_eq_error {line : List Char} {fault : Fault} (h : read line = .error fault)
    (label : String) : fault ≠ .noText label := by
  have hargs : ∀ {keyword args}, readArgs keyword args = .error fault →
      fault ≠ .noText label := by
    intro keyword args hread
    cases keyword <;>
      simp only [readArgs, readName, readNode, readText, readResp, readTrig] at hread <;>
      repeat' split at hread
    all_goals first
      | contradiction
      | (obtain rfl := Except.error.inj hread; exact nofun)
  unfold read at h
  repeat' split at h
  · exact hargs h
  all_goals obtain rfl := Except.error.inj h; exact nofun

end Directive

theorem ne_of_said_eq_error {raw : List Char} {fault : Fault} (h : said [raw] = [.error fault])
    (label : String) : fault ≠ .noText label := by
  cases hline : trim (stripComment raw) with
  | nil => simp [said, hline] at h
  | cons c cs =>
      have hread : Directive.read (c :: cs) = .error fault := by
        simpa [said, contentOf, hline] using h
      exact Directive.ne_of_read_eq_error hread label

/-! ## Cutting blocks -/

theorem opening_append_node (directives : List Directive) (kind : NodeKind) (label : String)
    (rest : List Directive) :
    opening (directives ++ .node kind label :: rest) = opening directives := by
  induction directives with
  | nil => rfl
  | cons directive directives ih =>
      cases directive <;> simp_all [opening, Directive.isNode]

theorem blocks_append_node (directives : List Directive) (kind : NodeKind) (label : String)
    (rest : List Directive) :
    blocks (directives ++ .node kind label :: rest) =
      blocks directives ++ ⟨kind, label, opening rest⟩ :: blocks rest := by
  induction directives with
  | nil => rfl
  | cons directive directives ih =>
      cases directive <;> simp [blocks, ih, opening_append_node]

theorem opening_eq_self {directives : List Directive}
    (h : ∀ directive ∈ directives, directive.isNode = false) : opening directives = directives := by
  simpa [opening] using opening_append h []

theorem blocks_eq_nil {directives : List Directive}
    (h : ∀ directive ∈ directives, directive.isNode = false) : blocks directives = [] := by
  simpa [blocks] using blocks_append h []

/-- Whether directives can be followed that others may come after: only names in
front of the first block, and a `text` line in every block but the last one. -/
structure Followed (directives : List Directive) : Prop where
  opening : ∀ directive ∈ opening directives, ∃ identifier, directive = .name identifier
  bodies : ∀ block ∈ (blocks directives).dropLast, block.bodies ≠ []

theorem isNode_of_names {directives : List Directive}
    (h : ∀ directive ∈ directives, ∃ identifier, directive = .name identifier) :
    ∀ directive ∈ directives, directive.isNode = false := by
  intro directive hmem
  obtain ⟨identifier, rfl⟩ := h directive hmem
  rfl

theorem placed_of_names {directives : List Directive}
    (h : ∀ directive ∈ directives, ∃ identifier, directive = .name identifier) :
    Placed directives := by
  refine ⟨fun directive hmem => h directive ((List.takeWhile_sublist _).subset hmem), ?_⟩
  rw [blocks_eq_nil (isNode_of_names h)]
  simp

theorem Placed.followed {directives : List Directive} (h : Placed directives) :
    Followed directives :=
  ⟨h.opening, fun block hmem => h.bodies block ((List.dropLast_sublist _).subset hmem)⟩

/-- Blocks with texts can be followed by another block, whatever is in it. -/
theorem Placed.followed_append {directives : List Directive} (h : Placed directives)
    (kind : NodeKind) (label : String) {inner : List Directive}
    (hinner : ∀ directive ∈ inner, directive.isNode = false) :
    Followed (directives ++ .node kind label :: inner) := by
  refine ⟨opening_append_node directives kind label inner ▸ h.opening, ?_⟩
  rw [blocks_append_node, blocks_eq_nil hinner, List.dropLast_concat]
  exact h.bodies

/-- A block that another one follows has its text, as all before it. -/
theorem Followed.placed {directives rest : List Directive} {kind : NodeKind} {label : String}
    (h : Followed (directives ++ .node kind label :: rest)) : Placed directives := by
  refine ⟨opening_append_node directives kind label rest ▸ h.opening, fun block hmem => ?_⟩
  apply h.bodies
  rw [blocks_append_node, List.dropLast_append_cons]
  exact List.mem_append_left _ hmem

theorem placed_append_node_iff {directives inner : List Directive} (kind : NodeKind)
    (label : String) (hinner : ∀ directive ∈ inner, directive.isNode = false) :
    Placed (directives ++ .node kind label :: inner) ↔
      Placed directives ∧ inner.filterMap Directive.body? ≠ [] := by
  have hopening := opening_append_node directives kind label inner
  have hblocks : blocks (directives ++ .node kind label :: inner) =
      blocks directives ++ [⟨kind, label, inner⟩] := by
    rw [blocks_append_node, blocks_eq_nil hinner, opening_eq_self hinner]
  constructor
  · rintro ⟨hnames, hbodies⟩
    rw [hopening] at hnames
    rw [hblocks, List.forall_mem_append, List.forall_mem_singleton] at hbodies
    exact ⟨⟨hnames, hbodies.1⟩, hbodies.2⟩
  · rintro ⟨⟨hnames, hbodies⟩, hinner⟩
    refine ⟨hopening ▸ hnames, ?_⟩
    rw [hblocks, List.forall_mem_append, List.forall_mem_singleton]
    exact ⟨hbodies, hinner⟩

/-! ## Following lines -/

theorem Draft.extend_append (draft : Draft) (directives more : List Directive) :
    (draft.extend directives).extend more = draft.extend (directives ++ more) := by
  simp [Draft.extend, List.getLast?_append, Option.or_assoc]

theorem Draft.body_extend_eq_none_iff {draft : Draft} (h : draft.body = none)
    (directives : List Directive) :
    (draft.extend directives).body = none ↔ directives.filterMap Directive.body? = [] := by
  simp [Draft.extend, h]

theorem Draft.node?_eq_none_iff {draft : Draft} : draft.node? = none ↔ draft.body = none := by
  simp [Draft.node?]

namespace Assembly

variable {file : String}

theorem close_eq_error_iff {assembly : Assembly} {error : Error} :
    assembly.close file = .error error ↔
      ∃ draft, assembly.draft = some draft ∧ draft.body = none ∧
        error = draft.place.error file (.noText draft.label) := by
  unfold close
  cases assembly.draft with
  | none => simp
  | some draft =>
      cases hnode : draft.node? with
      | none => simp [hnode, Draft.node?_eq_none_iff.mp hnode, eq_comm]
      | some node =>
          have hbody : draft.body ≠ none := fun hnone => by
            simp [Draft.node?_eq_none_iff.mpr hnone] at hnode
          simp [hnode, hbody]

theorem close_eq_ok_iff {assembly : Assembly} :
    (∃ closed, assembly.close file = .ok closed) ↔
      ∀ draft, assembly.draft = some draft → draft.body ≠ none := by
  cases hclose : assembly.close file with
  | ok closed =>
      refine ⟨fun _ draft hdraft hbody => ?_, fun _ => ⟨closed, rfl⟩⟩
      rw [close_eq_error_iff.mpr ⟨draft, hdraft, hbody, rfl⟩] at hclose
      contradiction
  | error error =>
      obtain ⟨draft, hdraft, hbody, -⟩ := close_eq_error_iff.mp hclose
      exact ⟨nofun, fun h => absurd hbody (h draft hdraft)⟩

/-- A directive is refused if it ends a draft without a text, or if it says
something about a node where there is none. -/
theorem apply_eq_error_iff {assembly : Assembly} {place : Place} {directive : Directive}
    {error : Error} :
    assembly.apply file place directive = .error error ↔
      (directive.isNode = true ∧ assembly.close file = .error error) ∨
      (directive.isNode = false ∧ directive.identifier? = none ∧ assembly.draft = none ∧
        error = place.error file (.outsideNode directive.keyword)) := by
  cases directive with
  | name identifier => simp [apply, Directive.isNode, Directive.identifier?]
  | node kind label =>
      cases hclose : assembly.close file <;> simp [apply, Directive.isNode, hclose]
  | text said next =>
      cases hdraft : assembly.draft <;>
        simp [apply, amend, Directive.isNode, Directive.identifier?, hdraft, eq_comm]
  | response said next trigger =>
      cases hdraft : assembly.draft <;>
        simp [apply, amend, Directive.isNode, Directive.identifier?, hdraft, eq_comm]

theorem draft_of_apply_node {assembly next : Assembly} {place : Place} {kind : NodeKind}
    {label : String} (h : assembly.apply file place (.node kind label) = .ok next) :
    next.draft = some { place, kind, label := Label.ofNode label } := by
  cases hclose : assembly.close file with
  | error error => simp [apply, hclose] at h
  | ok closed =>
      simp only [apply, hclose, Except.ok.injEq] at h
      rw [← h]

/-- Inside of a block, a directive extends the draft of the block. -/
theorem draft_of_apply {assembly next : Assembly} {place : Place} {directive : Directive}
    (h : assembly.apply file place directive = .ok next) (hnode : directive.isNode = false) :
    next.draft = assembly.draft.map (·.extend [directive]) := by
  cases directive with
  | name identifier =>
      obtain rfl := Except.ok.inj h
      have hsame : ∀ draft : Draft, draft.extend [.name identifier] = draft := Draft.extend_nil
      simp [hsame]
  | node kind label => contradiction
  | text said next =>
      cases hdraft : assembly.draft with
      | none => simp [apply, amend, hdraft] at h
      | some draft =>
          simp only [apply, amend, hdraft, Except.ok.injEq] at h
          rw [← h, Option.map_some, ← Draft.extend_text, Draft.extend_nil]
  | response said next trigger =>
      cases hdraft : assembly.draft with
      | none => simp [apply, amend, hdraft] at h
      | some draft =>
          simp only [apply, amend, hdraft, Except.ok.injEq] at h
          rw [← h, Option.map_some, ← Draft.extend_response, Draft.extend_nil]

/-- Follow one raw line, which may be blank. -/
def advance (file : String) (assembly : Assembly) (number : Nat) (raw : List Char) :
    Except Error Assembly :=
  match Line.read? raw number with
  | none => .ok assembly
  | some line => assembly.step file line

/-- Follow raw lines that are numbered from a given number on. -/
def follow (file : String) : Assembly → Nat → List (List Char) → Except Error Assembly
  | assembly, _, [] => .ok assembly
  | assembly, number, raw :: rest =>
      match assembly.advance file number raw with
      | .error error => .error error
      | .ok next => follow file next (number + 1) rest

theorem advance_of_blank {raw : List Char} (h : said [raw] = []) (assembly : Assembly)
    (number : Nat) : assembly.advance file number raw = .ok assembly := by
  rw [advance, read?_eq, h]
  rfl

theorem advance_of_error {raw : List Char} {fault : Fault} (h : said [raw] = [.error fault])
    (assembly : Assembly) (number : Nat) :
    assembly.advance file number raw = .error ⟨file, number, String.ofList (trim raw), fault⟩ := by
  rw [advance, read?_eq, h]
  rfl

theorem advance_of_ok {raw : List Char} {directive : Directive}
    (h : said [raw] = [.ok directive]) (assembly : Assembly) (number : Nat) :
    assembly.advance file number raw =
      assembly.apply file ⟨number, String.ofList (trim raw)⟩ directive := by
  rw [advance, read?_eq, h]
  rfl

theorem follow_append {assembly next : Assembly} {number : Nat} {front : List (List Char)}
    (h : assembly.follow file number front = .ok next) (rest : List (List Char)) :
    assembly.follow file number (front ++ rest) =
      next.follow file (number + front.length) rest := by
  induction front generalizing assembly number with
  | nil =>
      obtain rfl := Except.ok.inj h
      rfl
  | cons raw front ih =>
      simp only [follow, List.cons_append, List.length_cons] at h ⊢
      cases hadvance : assembly.advance file number raw with
      | error error => simp [hadvance] at h
      | ok between =>
          rw [hadvance] at h
          dsimp only
          rw [ih h, Nat.add_assoc, Nat.add_comm 1]

theorem follow_concat {assembly next : Assembly} {number : Nat} {front : List (List Char)}
    (h : assembly.follow file number front = .ok next) (raw : List Char) :
    assembly.follow file number (front ++ [raw]) =
      next.advance file (number + front.length) raw := by
  rw [follow_append h, follow]
  cases next.advance file (number + front.length) raw <;> rfl

/-- Lines are refused at the first one that cannot be followed. -/
theorem follow_eq_error_iff {assembly : Assembly} {number : Nat} {raws : List (List Char)}
    {error : Error} :
    assembly.follow file number raws = .error error ↔
      ∃ front raw rest next, raws = front ++ raw :: rest ∧
        assembly.follow file number front = .ok next ∧
        next.advance file (number + front.length) raw = .error error := by
  constructor
  · intro h
    induction raws generalizing assembly number with
    | nil => simp [follow] at h
    | cons raw raws ih =>
        cases hadvance : assembly.advance file number raw with
        | error other =>
            simp only [follow, hadvance, Except.error.injEq] at h
            exact ⟨[], raw, raws, assembly, rfl, rfl, h ▸ hadvance⟩
        | ok between =>
            simp only [follow, hadvance] at h
            obtain ⟨front, stop, rest, next, rfl, hfront, hstop⟩ := ih h
            refine ⟨raw :: front, stop, rest, next, rfl, by simp [follow, hadvance, hfront], ?_⟩
            rwa [List.length_cons, Nat.add_comm front.length, ← Nat.add_assoc]
  · rintro ⟨front, raw, rest, next, rfl, hfront, hraw⟩
    rw [follow_append hfront, follow, hraw]

/-- A run fails where its lines cannot be followed, or at the end of the last
draft. -/
theorem run_snd_eq_some_iff {assembly : Assembly} {number : Nat} {raws : List (List Char)}
    {error : Error} :
    (run file assembly ((raws.zipIdx number).filterMap fun (raw, number) =>
        Line.read? raw number)).2 = some error ↔
      assembly.follow file number raws = .error error ∨
        ∃ last, assembly.follow file number raws = .ok last ∧ last.close file = .error error := by
  induction raws generalizing assembly number with
  | nil => cases hclose : assembly.close file <;> simp [run, follow, hclose]
  | cons raw raws ih =>
      rw [List.zipIdx_cons, List.filterMap_cons]
      cases hread : Line.read? raw number with
      | none => simp [follow, advance, hread, ih]
      | some line =>
          cases hstep : assembly.step file line <;> simp [follow, advance, run, hread, hstep, ih]

end Assembly

theorem parse_eq_error_iff_follow {file src : String} {error : Error} :
    parse file src = .error error ↔
      Assembly.follow file {} 1 (lines src.toList) = .error error ∨
        ∃ last, Assembly.follow file {} 1 (lines src.toList) = .ok last ∧
          last.close file = .error error := by
  rw [← Assembly.run_snd_eq_some_iff, parse, read, readLines]
  split <;> simp_all

/-! ## The draft that lines leave open -/

/-- Lines that can all be followed and the draft that they leave open. There is
none in front of the first block; else the draft is that of the last block. -/
inductive Opened (front : List (List Char)) : Option Draft → Prop
  | opening {directives : List Directive} (hsaid : said front = directives.map .ok)
      (names : ∀ directive ∈ directives, ∃ identifier, directive = .name identifier) :
      Opened front none
  | block {before : List (List Char)} {raw : List Char} {after : List (List Char)}
      {earlier inner : List Directive} {kind : NodeKind} {label : String}
      (hfront : front = before ++ raw :: after) (hbefore : said before = earlier.map .ok)
      (placed : Placed earlier) (hraw : said [raw] = [.ok (.node kind label)])
      (hafter : said after = inner.map .ok)
      (hinner : ∀ directive ∈ inner, directive.isNode = false) :
      Opened front (some (Draft.extend
        ⟨⟨before.length + 1, String.ofList (trim raw)⟩, kind, Label.ofNode label, none, []⟩ inner))

namespace Opened

variable {file : String} {front : List (List Char)}

theorem exists_followed {draft : Option Draft} (h : Opened front draft) :
    ∃ directives, said front = directives.map .ok ∧ Followed directives ∧
      (draft = none ↔ ∀ directive ∈ directives, directive.isNode = false) := by
  cases h with
  | opening hsaid names =>
      exact ⟨_, hsaid, (placed_of_names names).followed, fun _ => isNode_of_names names,
        fun _ => rfl⟩
  | @block before raw after earlier inner kind label hfront hbefore placed hraw hafter hinner =>
      refine ⟨earlier ++ .node kind label :: inner, ?_, placed.followed_append kind label hinner,
        nofun, fun hnodes => ?_⟩
      · rw [hfront, said_append, said_cons, hbefore, hraw, hafter]
        simp
      · have hnode := hnodes (.node kind label) (by simp)
        contradiction

/-- The draft can be closed if every block has its text. -/
theorem close_iff_placed {assembly : Assembly} (h : Opened front assembly.draft)
    {directives : List Directive} (hsaid : said front = directives.map .ok) :
    (∃ closed, assembly.close file = .ok closed) ↔ Placed directives := by
  rw [Assembly.close_eq_ok_iff]
  generalize assembly.draft = draft at h
  cases h with
  | opening hnames names =>
      obtain rfl := eq_of_map_ok (hsaid.symm.trans hnames)
      exact ⟨fun _ => placed_of_names names, nofun⟩
  | @block before raw after earlier inner kind label hfront hbefore placed hraw hafter hinner =>
      have hwhole : said front = (earlier ++ .node kind label :: inner).map .ok := by
        rw [hfront, said_append, said_cons, hbefore, hraw, hafter]
        simp
      obtain rfl := eq_of_map_ok (hsaid.symm.trans hwhole)
      rw [placed_append_node_iff kind label hinner, and_iff_right placed]
      simp only [Option.some.injEq, forall_eq', ne_eq, Draft.body_extend_eq_none_iff]

/-- Lines inside of the last block extend its draft. In front of the first block
they can only be names. -/
theorem extend {draft : Option Draft} (h : Opened front draft) {raws : List (List Char)}
    {more : List Directive} (hraws : said raws = more.map .ok)
    (hmore : ∀ directive ∈ more, directive.isNode = false)
    (hnames : draft = none → ∀ directive ∈ more, ∃ identifier, directive = .name identifier) :
    Opened (front ++ raws) (draft.map (·.extend more)) := by
  cases h with
  | @opening directives hsaid names =>
      have hsaid' : said (front ++ raws) = (directives ++ more).map .ok := by
        rw [said_append, hsaid, hraws, List.map_append]
      refine .opening hsaid' fun directive hmem => ?_
      rcases List.mem_append.mp hmem with hmem | hmem
      · exact names directive hmem
      · exact hnames rfl directive hmem
  | @block before raw after earlier inner kind label hfront hbefore placed hraw hafter hinner =>
      have hfront' : front ++ raws = before ++ raw :: (after ++ raws) := by
        rw [hfront, List.append_assoc, List.cons_append]
      have hafter' : said (after ++ raws) = (inner ++ more).map .ok := by
        rw [said_append, hafter, hraws, List.map_append]
      rw [Option.map_some, Draft.extend_append]
      refine .block hfront' hbefore placed hraw hafter' fun directive hmem => ?_
      rcases List.mem_append.mp hmem with hmem | hmem
      · exact hinner directive hmem
      · exact hmore directive hmem

/-- One more line that can be followed. -/
theorem concat {assembly next : Assembly} {raw : List Char} (h : Opened front assembly.draft)
    (hadvance : assembly.advance file (front.length + 1) raw = .ok next) :
    Opened (front ++ [raw]) next.draft := by
  rcases said_singleton raw with hraw | ⟨fault, hraw⟩ | ⟨directive, hraw⟩
  · rw [Assembly.advance_of_blank hraw] at hadvance
    obtain rfl := Except.ok.inj hadvance
    have hblank : said [raw] = ([] : List Directive).map .ok := hraw
    simpa [Draft.extend_nil] using h.extend hblank
  · rw [Assembly.advance_of_error hraw] at hadvance
    contradiction
  · rw [Assembly.advance_of_ok hraw] at hadvance
    cases hnode : directive.isNode with
    | true =>
        obtain ⟨kind, label, rfl⟩ := Directive.exists_of_isNode hnode
        obtain ⟨directives, hsaid, -⟩ := h.exists_followed
        have hclose : ∃ closed, assembly.close file = .ok closed := by
          cases hclose : assembly.close file with
          | ok closed => exact ⟨closed, rfl⟩
          | error error => simp [Assembly.apply, hclose] at hadvance
        rw [Assembly.draft_of_apply_node hadvance]
        exact .block rfl hsaid ((h.close_iff_placed hsaid).mp hclose) hraw said_nil nofun
    | false =>
        rw [Assembly.draft_of_apply hadvance hnode]
        refine h.extend hraw (by simpa using hnode) fun hnone other hmem => ?_
        obtain rfl := List.mem_singleton.mp hmem
        cases other with
        | name identifier => exact ⟨identifier, rfl⟩
        | node kind label => contradiction
        | text said next => simp [Assembly.apply, Assembly.amend, hnone] at hadvance
        | response said next trigger => simp [Assembly.apply, Assembly.amend, hnone] at hadvance

end Opened

theorem opened_follow {file : String} {front : List (List Char)} {assembly : Assembly}
    (h : Assembly.follow file {} 1 front = .ok assembly) : Opened front assembly.draft := by
  induction front using List.reverseRecOn generalizing assembly with
  | nil =>
      obtain rfl := Except.ok.inj h
      exact .opening said_nil nofun
  | append_singleton front raw ih =>
      cases hfront : Assembly.follow file {} 1 front with
      | error error =>
          obtain ⟨before, stop, rest, next, rfl, hbefore, hstop⟩ :=
            Assembly.follow_eq_error_iff.mp hfront
          rw [List.append_assoc, Assembly.follow_append hbefore, List.cons_append, Assembly.follow,
            hstop] at h
          contradiction
      | ok last =>
          rw [Assembly.follow_concat hfront, Nat.add_comm 1] at h
          exact (ih hfront).concat h

/-- Directives that can be followed are. -/
theorem exists_follow (file : String) {front : List (List Char)} {directives : List Directive}
    (hsaid : said front = directives.map .ok) (h : Followed directives) :
    ∃ assembly, Assembly.follow file {} 1 front = .ok assembly := by
  cases hfollow : Assembly.follow file {} 1 front with
  | ok assembly => exact ⟨assembly, rfl⟩
  | error error =>
      exfalso
      obtain ⟨before, stop, rest, last, rfl, hbefore, hstop⟩ :=
        Assembly.follow_eq_error_iff.mp hfollow
      have hopened := opened_follow hbefore
      obtain ⟨earlier, others, rfl, hearlier, hothers⟩ := List.append_eq_map_iff.mp
        ((said_append before (stop :: rest)).symm.trans hsaid)
      rw [said_cons] at hothers
      rcases said_singleton stop with hraw | ⟨fault, hraw⟩ | ⟨directive, hraw⟩
      · rw [Assembly.advance_of_blank hraw] at hstop
        contradiction
      · cases others <;> simp [hraw] at hothers
      · rw [Assembly.advance_of_ok hraw, Assembly.apply_eq_error_iff] at hstop
        obtain ⟨more, rfl⟩ : ∃ more, others = directive :: more := by
          cases others <;> simp_all
        rcases hstop with ⟨hnode, hclose⟩ | ⟨hnode, hname, hdraft, -⟩
        · obtain ⟨kind, label, rfl⟩ := Directive.exists_of_isNode hnode
          obtain ⟨closed, hclosed⟩ := (hopened.close_iff_placed hearlier.symm).mpr h.placed
          rw [hclose] at hclosed
          contradiction
        · obtain ⟨names, hnames, -, hnone⟩ := hopened.exists_followed
          obtain rfl := eq_of_map_ok (hearlier.trans hnames)
          have hmem : directive ∈ opening (earlier ++ directive :: more) := by
            rw [opening_append (hnone.mp hdraft)]
            simp [opening, hnode]
          obtain ⟨identifier, rfl⟩ := h.opening directive hmem
          contradiction

/-- Lines inside of a block extend its draft. -/
theorem exists_follow_extend (file : String) {assembly : Assembly} {draft : Draft}
    (hdraft : assembly.draft = some draft) (number : Nat) {raws : List (List Char)}
    {directives : List Directive} (hsaid : said raws = directives.map .ok)
    (hnodes : ∀ directive ∈ directives, directive.isNode = false) :
    ∃ last, assembly.follow file number raws = .ok last ∧
      last.draft = some (draft.extend directives) := by
  induction raws generalizing assembly draft number directives with
  | nil =>
      obtain rfl := eq_of_map_ok (hsaid.symm.trans said_nil)
      exact ⟨assembly, rfl, by rw [hdraft, Draft.extend_nil]⟩
  | cons raw raws ih =>
      rw [said_cons] at hsaid
      rcases said_singleton raw with hraw | ⟨fault, hraw⟩ | ⟨directive, hraw⟩
      · rw [hraw, List.nil_append] at hsaid
        obtain ⟨last, hlast, hextended⟩ := ih hdraft (number + 1) hsaid hnodes
        refine ⟨last, ?_, hextended⟩
        rw [Assembly.follow, Assembly.advance_of_blank hraw]
        exact hlast
      · cases directives <;> simp [hraw] at hsaid
      · obtain ⟨more, rfl⟩ : ∃ more, directives = directive :: more := by
          cases directives <;> simp_all
        rw [List.forall_mem_cons] at hnodes
        obtain ⟨hnode, hmore⟩ := hnodes
        have hsaid' : said raws = more.map .ok := by simpa [hraw] using hsaid
        cases happly : assembly.apply file ⟨number, String.ofList (trim raw)⟩ directive with
        | error error => simp [Assembly.apply_eq_error_iff, hnode, hdraft] at happly
        | ok next =>
            have hnext := Assembly.draft_of_apply happly hnode
            rw [hdraft, Option.map_some] at hnext
            obtain ⟨last, hlast, hextended⟩ := ih hnext (number + 1) hsaid' hmore
            refine ⟨last, ?_, by rw [hextended, Draft.extend_append, List.singleton_append]⟩
            rw [Assembly.follow, Assembly.advance_of_ok hraw, happly]
            exact hlast

/-! ## Refused scripts -/

/-- Whether a line cannot be followed: all before it can, but it is no directive,
or it says something about a node in front of the first one. -/
def Stuck (front : List (List Char)) (raw : List Char) (fault : Fault) : Prop :=
  ∃ directives, said front = directives.map .ok ∧ Followed directives ∧
    (said [raw] = [.error fault] ∨
      ∃ directive, said [raw] = [.ok directive] ∧ directive.isNode = false ∧
        directive.identifier? = none ∧ (∀ earlier ∈ directives, earlier.isNode = false) ∧
        fault = .outsideNode directive.keyword)

/-- Whether a block ends where these lines begin: at another block or at the end
of the script. -/
def EndsBlock (raws : List (List Char)) : Prop :=
  raws = [] ∨ ∃ closing more kind spelled, raws = closing :: more ∧
    said [closing] = [.ok (.node kind spelled)]

/-- Whether a line opens the first block that ends without a text, all lines up
to its end being directives in their places. -/
def Textless (front : List (List Char)) (raw : List Char) (rest : List (List Char))
    (label : String) : Prop :=
  (∃ directives, said front = directives.map .ok ∧ Placed directives) ∧
    (∃ kind spelled, said [raw] = [.ok (.node kind spelled)] ∧ label = Label.ofNode spelled) ∧
    ∃ (inner after : List (List Char)) (directives : List Directive), rest = inner ++ after ∧
      said inner = directives.map .ok ∧
      (∀ directive ∈ directives, directive.isNode = false ∧ directive.body? = none) ∧
      EndsBlock after

/-- The line that ends a block without a text is refused for the sake of the line
that opened it. -/
theorem parse_of_textless {src : String} {front : List (List Char)} {raw : List Char}
    {rest : List (List Char)} {label : String} (file : String)
    (hlines : lines src.toList = front ++ raw :: rest) (h : Textless front raw rest label) :
    parse file src =
      .error ⟨file, front.length + 1, String.ofList (trim raw), .noText label⟩ := by
  obtain ⟨⟨earlier, hearlier, placed⟩, ⟨kind, spelled, hraw, rfl⟩, inner, after, directives, rfl,
    hinner, hquiet, hafter⟩ := h
  -- The draft is opened, kept up to the end of the block and then found to have no text.
  obtain ⟨before, hbefore⟩ := exists_follow file hearlier placed.followed
  obtain ⟨closed, hclosed⟩ := ((opened_follow hbefore).close_iff_placed hearlier).mpr placed
  let draft : Draft :=
    { place := ⟨front.length + 1, String.ofList (trim raw)⟩, kind, label := Label.ofNode spelled }
  have hopening : before.advance file (1 + front.length) raw =
      .ok { closed with draft := some draft } := by
    rw [Assembly.advance_of_ok hraw, Assembly.apply, hclosed, Nat.add_comm 1]
  obtain ⟨last, hlast, hdraft⟩ := exists_follow_extend file
    (show Assembly.draft { closed with draft := some draft } = some draft from rfl)
    (1 + front.length + 1) hinner fun directive hmem => (hquiet directive hmem).1
  have hopened : Assembly.follow file {} 1 (front ++ raw :: inner) = .ok last := by
    rw [Assembly.follow_append hbefore, Assembly.follow, hopening]
    exact hlast
  have hbodies : directives.filterMap Directive.body? = [] :=
    List.filterMap_eq_nil_iff.mpr fun directive hmem => (hquiet directive hmem).2
  have hclose : last.close file =
      .error ⟨file, front.length + 1, String.ofList (trim raw), .noText (Label.ofNode spelled)⟩ :=
    Assembly.close_eq_error_iff.mpr
      ⟨_, hdraft, (Draft.body_extend_eq_none_iff rfl directives).mpr hbodies, rfl⟩
  rw [parse_eq_error_iff_follow, hlines, ← List.cons_append, ← List.append_assoc]
  rcases hafter with rfl | ⟨closing, more, kind, spelled, rfl, hclosing⟩
  · exact .inr ⟨last, by rw [List.append_nil, hopened], hclose⟩
  · refine .inl (Assembly.follow_eq_error_iff.mpr ⟨_, closing, more, last, rfl, hopened, ?_⟩)
    rw [Assembly.advance_of_ok hclosing, Assembly.apply_eq_error_iff]
    exact .inl ⟨rfl, hclose⟩

theorem parse_of_stuck {src : String} {front : List (List Char)} {raw : List Char}
    {rest : List (List Char)} {fault : Fault} (file : String)
    (hlines : lines src.toList = front ++ raw :: rest) (h : Stuck front raw fault) :
    parse file src = .error ⟨file, front.length + 1, String.ofList (trim raw), fault⟩ := by
  obtain ⟨directives, hfront, hfollowed, hraw⟩ := h
  obtain ⟨last, hlast⟩ := exists_follow file hfront hfollowed
  rw [parse_eq_error_iff_follow, hlines]
  refine .inl (Assembly.follow_eq_error_iff.mpr ⟨front, raw, rest, last, rfl, hlast, ?_⟩)
  rw [Nat.add_comm 1]
  rcases hraw with hraw | ⟨directive, hraw, hnode, hname, hnone, rfl⟩
  · exact Assembly.advance_of_error hraw last (front.length + 1)
  · rw [Assembly.advance_of_ok hraw, Assembly.apply_eq_error_iff]
    obtain ⟨others, hothers, -, hdraft⟩ := (opened_follow hlast).exists_followed
    obtain rfl := eq_of_map_ok (hfront.symm.trans hothers)
    exact .inr ⟨hnode, hname, hdraft.mpr hnone, rfl⟩

/-- Whether an error says where lines are refused and why. The line to blame is
one that cannot be followed or one that opens a block without a text, whichever
shows first. It counts among all lines and is quoted without the blanks around
it. -/
def Refused (raws : List (List Char)) (error : Error) : Prop :=
  ∃ front raw rest, raws = front ++ raw :: rest ∧ error.line = front.length + 1 ∧
    error.raw = String.ofList (trim raw) ∧
    match error.fault with
    | .noText label => Textless front raw rest label
    | fault => Stuck front raw fault

theorem Stuck.refused {file : String} {front rest : List (List Char)} {raw : List Char}
    {fault : Fault} (h : Stuck front raw fault) (hfault : ∀ label, fault ≠ .noText label) :
    Refused (front ++ raw :: rest) ⟨file, front.length + 1, String.ofList (trim raw), fault⟩ := by
  refine ⟨front, raw, rest, rfl, rfl, rfl, ?_⟩
  cases fault with
  | noText label => exact absurd rfl (hfault label)
  | _ => exact h

/-- A draft that cannot be closed belongs to a block without a text. -/
theorem Opened.refused_of_close {file : String} {front after : List (List Char)}
    {assembly : Assembly} {error : Error} (h : Opened front assembly.draft)
    (hclose : assembly.close file = .error error) (hafter : EndsBlock after) :
    error.file = file ∧ Refused (front ++ after) error := by
  obtain ⟨draft, hdraft, hbody, rfl⟩ := Assembly.close_eq_error_iff.mp hclose
  rw [hdraft] at h
  cases h with
  | @block before raw inner earlier lines kind label hfront hbefore placed hraw hinner hnodes =>
      rw [Draft.body_extend_eq_none_iff rfl, List.filterMap_eq_nil_iff] at hbody
      refine ⟨rfl, before, raw, inner ++ after, by simp [hfront], rfl, rfl,
        ⟨earlier, hbefore, placed⟩, ⟨kind, label, hraw, rfl⟩, inner, after, lines, rfl, hinner,
        fun directive hmem => ?_, hafter⟩
      exact ⟨hnodes directive hmem, hbody directive hmem⟩

/-- The line at which following stops is to blame, unless it ends a block without
a text: then it is the line that opened the block. -/
theorem Opened.refused_of_advance {file : String} {front : List (List Char)} {raw : List Char}
    {assembly : Assembly} {error : Error} (h : Opened front assembly.draft)
    (hraw : assembly.advance file (front.length + 1) raw = .error error)
    (rest : List (List Char)) : error.file = file ∧ Refused (front ++ raw :: rest) error := by
  obtain ⟨directives, hsaid, hfollowed, hdraft⟩ := h.exists_followed
  rcases said_singleton raw with hblank | ⟨fault, hread⟩ | ⟨directive, hread⟩
  · rw [Assembly.advance_of_blank hblank] at hraw
    contradiction
  · rw [Assembly.advance_of_error hread] at hraw
    obtain rfl := Except.error.inj hraw
    have hstuck : Stuck front raw fault := ⟨directives, hsaid, hfollowed, .inl hread⟩
    exact ⟨rfl, hstuck.refused (ne_of_said_eq_error hread)⟩
  · rw [Assembly.advance_of_ok hread, Assembly.apply_eq_error_iff] at hraw
    rcases hraw with ⟨hnode, hclose⟩ | ⟨hnode, hname, hnone, rfl⟩
    · obtain ⟨kind, label, rfl⟩ := Directive.exists_of_isNode hnode
      exact h.refused_of_close hclose (.inr ⟨raw, rest, kind, label, rfl, hread⟩)
    · have hstuck : Stuck front raw (.outsideNode directive.keyword) :=
        ⟨directives, hsaid, hfollowed, .inr ⟨directive, hread, hnode, hname, hdraft.mp hnone, rfl⟩⟩
      exact ⟨rfl, hstuck.refused nofun⟩

/-- A script gives an error if its lines are refused, and the error is the one
that says where and why. -/
theorem parse_eq_error_iff (file src : String) (error : Error) :
    parse file src = .error error ↔ error.file = file ∧ Refused (lines src.toList) error := by
  constructor
  · intro h
    rcases parse_eq_error_iff_follow.mp h with h | ⟨last, hlast, hclose⟩
    · obtain ⟨front, raw, rest, last, hlines, hfront, hraw⟩ := Assembly.follow_eq_error_iff.mp h
      rw [Nat.add_comm 1] at hraw
      rw [hlines]
      exact (opened_follow hfront).refused_of_advance hraw rest
    · have hrefused := (opened_follow hlast).refused_of_close hclose (.inl rfl)
      rwa [List.append_nil] at hrefused
  · rintro ⟨hfile, front, raw, rest, hlines, hline, hraw, hfault⟩
    obtain ⟨file, line, quoted, fault⟩ := error
    obtain rfl : file = _ := hfile
    obtain rfl : line = _ := hline
    obtain rfl : quoted = _ := hraw
    cases fault with
    | noText label => exact parse_of_textless _ hlines hfault
    | _ => exact parse_of_stuck _ hlines hfault

end Parley.Script
