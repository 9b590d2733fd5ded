import Mathlib
import Lumen.Session
import Lumen.Proofs.NumberText
import Lumen.Proofs.Recovery
import Lumen.Proofs.Rendering

/-!
# Trees can be read off their texts

The text of a tree is a form: a word, or brackets around a head and one or two
parts.  Words and heads contain no blanks and no brackets, so a form is read off
its text from left to right, and what stands behind the first part tells how many
there are.  A form in turn tells the tree.  Operators have one spelling each, and
none of them is the head of a grouping.  Among the words, names begin with letters
and are no keywords, and a number is told from every other number by its text.
-/

namespace Lumen

/-! ## Forms -/

/-- A word, or brackets around a head and one or two parts. -/
inductive Form where
  | word (text : List Char)
  | one (head : List Char) (part : Form)
  | two (head : List Char) (first second : Form)

namespace Form

def text : Form → List Char
  | word text => text
  | one head part => '(' :: (head ++ ' ' :: (part.text ++ [')']))
  | two head first second =>
      '(' :: (head ++ ' ' :: (first.text ++ ' ' :: (second.text ++ [')'])))

/-- Characters that do not end a word. -/
def isPlain (c : Char) : Bool :=
  c != ' ' && c != '(' && c != ')'

theorem isPlain_of_ends {condition : Char → Bool} (hblank : condition ' ' = false)
    (hopening : condition '(' = false) (hclosing : condition ')' = false) {c : Char}
    (hc : condition c = true) : isPlain c = true := by
  have hdiffer : ∀ stop, condition stop = false → (c != stop) = true := by
    intro stop hstop
    refine bne_iff_ne.mpr ?_
    rintro rfl
    rw [hstop] at hc
    cases hc
  rw [isPlain, hdiffer _ hblank, hdiffer _ hopening, hdiffer _ hclosing]
  rfl

/-- Words are not empty, and nothing ends a word or a head early. -/
def Proper : Form → Prop
  | word text => text ≠ [] ∧ ∀ c ∈ text, isPlain c = true
  | one head part => (∀ c ∈ head, isPlain c = true) ∧ part.Proper
  | two head first second =>
      (∀ c ∈ head, isPlain c = true) ∧ first.Proper ∧ second.Proper

/-- A text that ends the word in front of it. -/
def Ends (rest : List Char) : Prop :=
  ∀ c ∈ rest.head?, isPlain c = false

theorem ends_blank (rest : List Char) : Ends (' ' :: rest) := by
  rintro c ⟨⟩
  rfl

theorem ends_bracket (rest : List Char) : Ends (')' :: rest) := by
  rintro c ⟨⟩
  rfl

theorem takeWhile_isPlain {word rest : List Char} (hword : ∀ c ∈ word, isPlain c = true)
    (hrest : Ends rest) : (word ++ rest).takeWhile isPlain = word := by
  rw [List.takeWhile_append_of_pos hword]
  cases rest with
  | nil => rw [List.takeWhile_nil, List.append_nil]
  | cons c rest =>
      have hstop := hrest c rfl
      rw [List.takeWhile_cons_of_neg (by simp [hstop]), List.append_nil]

/-- A word goes as far as its characters do. -/
theorem word_append_inj {first second rest rest' : List Char}
    (hfirst : ∀ c ∈ first, isPlain c = true) (hsecond : ∀ c ∈ second, isPlain c = true)
    (hrest : Ends rest) (hrest' : Ends rest') (hsame : first ++ rest = second ++ rest') :
    first = second ∧ rest = rest' := by
  have hwords : first = second := by
    rw [← takeWhile_isPlain hfirst hrest, hsame, takeWhile_isPlain hsecond hrest']
  subst hwords
  exact ⟨rfl, List.append_cancel_left hsame⟩

theorem word_ne_bracket {text : List Char} (hproper : (word text).Proper) (rest more : List Char) :
    text ++ rest ≠ '(' :: more := by
  obtain ⟨hsome, hplain⟩ := hproper
  obtain ⟨c, later, rfl⟩ := List.exists_cons_of_ne_nil hsome
  intro hsame
  obtain ⟨rfl, -⟩ := List.cons.inj hsame
  cases hplain '(' List.mem_cons_self

theorem text_one_append (head : List Char) (part : Form) (rest : List Char) :
    (one head part).text ++ rest = '(' :: (head ++ ' ' :: (part.text ++ ')' :: rest)) := by
  simp [text]

theorem text_two_append (head : List Char) (first second : Form) (rest : List Char) :
    (two head first second).text ++ rest =
      '(' :: (head ++ ' ' :: (first.text ++ ' ' :: (second.text ++ ')' :: rest))) := by
  simp [text]

theorem head_append_inj {head head' more more' : List Char} (hhead : ∀ c ∈ head, isPlain c = true)
    (hhead' : ∀ c ∈ head', isPlain c = true)
    (hsame : '(' :: (head ++ ' ' :: more) = '(' :: (head' ++ ' ' :: more')) :
    head = head' ∧ more = more' := by
  obtain ⟨hwords, hbehind⟩ := word_append_inj hhead hhead' (ends_blank more) (ends_blank more')
    (List.cons.inj hsame).2
  exact ⟨hwords, (List.cons.inj hbehind).2⟩

/-- A form in front of a text that ends it is read in one way. -/
theorem text_append_inj {first second : Form} {rest rest' : List Char} (hfirst : first.Proper)
    (hsecond : second.Proper) (hrest : Ends rest) (hrest' : Ends rest')
    (hsame : first.text ++ rest = second.text ++ rest') : first = second ∧ rest = rest' := by
  induction first generalizing second rest rest' with
  | word word =>
      cases second with
      | word word' =>
          obtain ⟨rfl, hbehind⟩ := word_append_inj hfirst.2 hsecond.2 hrest hrest' hsame
          exact ⟨rfl, hbehind⟩
      | one => exact absurd hsame (word_ne_bracket hfirst _ _)
      | two => exact absurd hsame (word_ne_bracket hfirst _ _)
  | one head part ih =>
      rw [text_one_append] at hsame
      cases second with
      | word => exact absurd hsame.symm (word_ne_bracket hsecond _ _)
      | one head' part' =>
          rw [text_one_append] at hsame
          obtain ⟨rfl, hparts⟩ := head_append_inj hfirst.1 hsecond.1 hsame
          obtain ⟨rfl, hbehind⟩ := ih hfirst.2 hsecond.2 (ends_bracket _) (ends_bracket _) hparts
          exact ⟨rfl, (List.cons.inj hbehind).2⟩
      | two head' part' last' =>
          -- Behind the first part stands a bracket on one side and a blank on the other.
          rw [text_two_append] at hsame
          obtain ⟨rfl, hparts⟩ := head_append_inj hfirst.1 hsecond.1 hsame
          obtain ⟨-, hbehind⟩ := ih hfirst.2 hsecond.2.1 (ends_bracket _) (ends_blank _) hparts
          cases hbehind
  | two head part last ihPart ihLast =>
      rw [text_two_append] at hsame
      cases second with
      | word => exact absurd hsame.symm (word_ne_bracket hsecond _ _)
      | one head' part' =>
          rw [text_one_append] at hsame
          obtain ⟨rfl, hparts⟩ := head_append_inj hfirst.1 hsecond.1 hsame
          obtain ⟨-, hbehind⟩ := ihPart hfirst.2.1 hsecond.2 (ends_blank _) (ends_bracket _) hparts
          cases hbehind
      | two head' part' last' =>
          rw [text_two_append] at hsame
          obtain ⟨rfl, hparts⟩ := head_append_inj hfirst.1 hsecond.1 hsame
          obtain ⟨rfl, hlasts⟩ :=
            ihPart hfirst.2.1 hsecond.2.1 (ends_blank _) (ends_blank _) hparts
          obtain ⟨rfl, hbehind⟩ := ihLast hfirst.2.2 hsecond.2.2 (ends_bracket _)
            (ends_bracket _) (List.cons.inj hlasts).2
          exact ⟨rfl, (List.cons.inj hbehind).2⟩

/-- Proper forms with one text are the same. -/
theorem text_inj {first second : Form} (hfirst : first.Proper) (hsecond : second.Proper)
    (hsame : first.text = second.text) : first = second := by
  have hnothing : Ends [] := fun c hmem => by cases hmem
  refine (text_append_inj hfirst hsecond hnothing hnothing ?_).1
  rw [hsame]

end Form

def Expr.form : Expr → Form
  | binary left operator right => .two operator.lexeme.toList left.form right.form
  | grouping inner _ => .one "group".toList inner.form
  | literal value => .word (value.elim "nil" Value.display).toList
  | unary operator operand => .one operator.lexeme.toList operand.form
  | reference name => .word name.lexeme.toList

def Stmt.form : Stmt → Form
  | print value => .one "print".toList value.form
  | expression value => .one ";".toList value.form
  | declare name none => .one "var".toList (.word name.lexeme.toList)
  | declare name (some value) => .two "var".toList (.word name.lexeme.toList) value.form

theorem Expr.text_form (expr : Expr) : expr.form.text = expr.text.toList := by
  induction expr with
  | binary left operator right ihLeft ihRight =>
      simp [form, text, Form.text, ihLeft, ihRight]
  | grouping inner paren ih => simp [form, text, Form.text, ih]
  | literal value => rfl
  | unary operator operand ih => simp [form, text, Form.text, ih]
  | reference name => rfl

theorem Stmt.text_form (stmt : Stmt) : stmt.form.text = stmt.text.toList := by
  cases stmt with
  | print value => simp [form, text, Form.text, Expr.text_form]
  | expression value => simp [form, text, Form.text, Expr.text_form]
  | declare name initializer =>
      cases initializer with
      | none => simp [form, text, Form.text]
      | some value => simp [form, text, Form.text, Expr.text_form]

/-! ## Trees without lines -/

def Token.withoutLine (token : Token) : Token :=
  { token with line := 0 }

def Expr.withoutLines : Expr → Expr
  | binary left operator right =>
      binary left.withoutLines operator.withoutLine right.withoutLines
  | grouping inner paren => grouping inner.withoutLines (paren.map Token.withoutLine)
  | literal value => literal value
  | unary operator operand => unary operator.withoutLine operand.withoutLines
  | reference name => reference name.withoutLine

def Stmt.withoutLines : Stmt → Stmt
  | print value => print value.withoutLines
  | expression value => expression value.withoutLines
  | declare name initializer => declare name.withoutLine (initializer.map Expr.withoutLines)

/-! ## What legible trees are made of -/

def operatorKinds : List Kind :=
  [.bangEqual, .equalEqual, .greater, .greaterEqual, .less, .lessEqual, .minus, .plus, .slash,
    .star, .bang]

namespace Token

/-- A token that is determined by its kind, up to its line. -/
def Spelled (token : Token) : Prop :=
  token.kind.spelling? = some token.lexeme ∧ token.literal = none

/-- An operator as sources have it. -/
def Operates (token : Token) : Prop :=
  token.kind ∈ operatorKinds ∧ token.Spelled

/-- A name as sources have it. -/
def Names (token : Token) : Prop :=
  token.kind = .identifier ∧ token.literal = none ∧
    ∃ first more, token.lexeme.toList = first :: more ∧ Scan.isNameStart first = true ∧
      (∀ c ∈ more, Scan.isNamePart c = true) ∧
      ∀ kind : Kind, kind.spelling? ≠ some token.lexeme

theorem Spelled.withoutLine_eq {first second : Token} (hfirst : first.Spelled)
    (hsecond : second.Spelled) (hkind : first.kind = second.kind) :
    first.withoutLine = second.withoutLine := by
  have hlexeme : first.lexeme = second.lexeme := by
    have hspelling := hfirst.1
    rw [hkind, hsecond.1] at hspelling
    exact (Option.some.inj hspelling).symm
  rw [withoutLine, withoutLine, hkind, hlexeme, hfirst.2, hsecond.2]

/-- Operators differ in their spellings. -/
theorem Operates.withoutLine_eq {first second : Token} (hfirst : first.Operates)
    (hsecond : second.Operates) (hlexeme : first.lexeme = second.lexeme) :
    first.withoutLine = second.withoutLine := by
  have hdiffer : ∀ kind ∈ operatorKinds, ∀ kind' ∈ operatorKinds,
      kind.spelling? = kind'.spelling? → kind = kind' := by decide
  refine hfirst.2.withoutLine_eq hsecond.2 (hdiffer _ hfirst.1 _ hsecond.1 ?_)
  rw [hfirst.2.1, hsecond.2.1, hlexeme]

theorem Operates.isPlain {token : Token} (hoperates : token.Operates) :
    ∀ c ∈ token.lexeme.toList, Form.isPlain c = true := by
  have hplain : ∀ kind ∈ operatorKinds,
      (kind.spelling?.all fun spelling => spelling.toList.all Form.isPlain) = true := by decide
  have hspelling := hplain _ hoperates.1
  rw [hoperates.2.1] at hspelling
  exact List.all_eq_true.mp hspelling

/-- No operator is spelled like the head of a bracket. -/
theorem Operates.lexeme_ne_group {token : Token} (hoperates : token.Operates) :
    token.lexeme ≠ "group" := by
  have hdiffer : ∀ kind ∈ operatorKinds, kind.spelling? ≠ some "group" := by decide
  intro hgroup
  exact hdiffer _ hoperates.1 (hgroup ▸ hoperates.2.1)

theorem Names.withoutLine_eq {first second : Token} (hfirst : first.Names)
    (hsecond : second.Names) (hlexeme : first.lexeme = second.lexeme) :
    first.withoutLine = second.withoutLine := by
  obtain ⟨hkind, hliteral, -⟩ := hfirst
  obtain ⟨hkind', hliteral', -⟩ := hsecond
  rw [withoutLine, withoutLine, hkind, hkind', hliteral, hliteral', hlexeme]

theorem Names.proper {token : Token} (hnames : token.Names) :
    (Form.word token.lexeme.toList).Proper := by
  obtain ⟨-, -, first, more, htext, hfirst, hmore, -⟩ := hnames
  rw [htext]
  refine ⟨List.cons_ne_nil _ _, List.forall_mem_cons.mpr ⟨?_, ?_⟩⟩
  · exact Form.isPlain_of_ends rfl rfl rfl hfirst
  · exact fun c hmem => Form.isPlain_of_ends rfl rfl rfl (hmore c hmem)

end Token

namespace Value

/-- The values of literals that are neither texts nor infinite. -/
inductive Legible : Value → Prop
  | nil : Legible .nil
  | boolean (value : Bool) : Legible (.boolean value)
  | number (value : Float) (hfinite : value.isFinite = true)
      (hsign : Number.isNegative value = false) : Legible (.number value)

/-- No number is written with a letter in front. -/
theorem display_number_ne {number : Float} (hfinite : number.isFinite = true)
    (hsign : Number.isNegative number = false) {text : String} {first : Char} {more : List Char}
    (htext : text.toList = first :: more) (hfirst : Scan.isNameStart first = true) :
    (Value.number number).display ≠ text := by
  rintro rfl
  have hchars := (Number.display_chars hfinite hsign).2 first
    (htext ▸ List.mem_cons_self : first ∈ (Value.number number).display.toList)
  rcases hchars with hdigit | rfl
  · rw [Scan.not_isNameStart_of_isDigit hdigit] at hfirst
    cases hfirst
  · cases hfirst

/-- Different literals are shown differently. -/
theorem Legible.display_inj {first second : Value} (hfirst : first.Legible)
    (hsecond : second.Legible) (hsame : first.display = second.display) : first = second := by
  have hbooleans : ∀ value : Bool, (Value.boolean value).display ≠ "nil" := by decide
  have hdiffer : ∀ value value' : Bool,
      (Value.boolean value).display = (Value.boolean value').display → value = value' := by decide
  have hletters : ∀ value : Bool, ∃ letter more,
      (Value.boolean value).display.toList = letter :: more ∧ Scan.isNameStart letter = true := by
    intro value
    cases value
    · exact ⟨'f', "alse".toList, rfl, rfl⟩
    · exact ⟨'t', "rue".toList, rfl, rfl⟩
  cases hfirst with
  | nil =>
      cases hsecond with
      | nil => rfl
      | boolean value => exact absurd hsame.symm (hbooleans value)
      | number number hfinite hsign =>
          exact absurd hsame.symm (display_number_ne hfinite hsign rfl rfl)
  | boolean value =>
      obtain ⟨letter, more, htext, hletter⟩ := hletters value
      cases hsecond with
      | nil => exact absurd hsame (hbooleans value)
      | boolean value' => rw [hdiffer value value' hsame]
      | number number hfinite hsign =>
          exact absurd hsame.symm (display_number_ne hfinite hsign htext hletter)
  | number number hfinite hsign =>
      cases hsecond with
      | nil => exact absurd hsame (display_number_ne hfinite hsign rfl rfl)
      | boolean value =>
          obtain ⟨letter, more, htext, hletter⟩ := hletters value
          exact absurd hsame (display_number_ne hfinite hsign htext hletter)
      | number number' hfinite' hsign' =>
          rw [Number.display_injective hfinite hfinite' hsign hsign' hsame]

/-- No literal is shown as a name. -/
theorem Legible.display_ne_name {value : Value} (hlegible : value.Legible) {name : Token}
    (hname : name.Names) : value.display ≠ name.lexeme := by
  obtain ⟨-, -, first, more, htext, hfirst, -, hfree⟩ := hname
  cases hlegible with
  | nil => exact fun hsame => hfree .nilWord (congrArg some hsame)
  | boolean value =>
      cases value with
      | false => exact fun hsame => hfree .falseWord (congrArg some hsame)
      | true => exact fun hsame => hfree .trueWord (congrArg some hsame)
  | number number hfinite hsign => exact display_number_ne hfinite hsign htext hfirst

theorem Legible.proper {value : Value} (hlegible : value.Legible) :
    (Form.word value.display.toList).Proper := by
  cases hlegible with
  | nil => exact ⟨List.cons_ne_nil _ _, List.all_eq_true.mp rfl⟩
  | boolean value => cases value <;> exact ⟨List.cons_ne_nil _ _, List.all_eq_true.mp rfl⟩
  | number number hfinite hsign =>
      obtain ⟨hsome, hchars⟩ := Number.display_chars hfinite hsign
      refine ⟨hsome, fun c hmem => ?_⟩
      rcases hchars c hmem with hdigit | rfl
      · exact Form.isPlain_of_ends rfl rfl rfl hdigit
      · rfl

end Value

/-! ## Forms of legible trees -/

/-- The expression is made of what sources without strings and infinite numbers
give. -/
def Expr.Legible : Expr → Prop
  | binary left operator right => operator.Operates ∧ left.Legible ∧ right.Legible
  | grouping inner paren =>
      (∃ opening, paren = some opening ∧ opening.kind = .leftParen ∧ opening.Spelled) ∧
        inner.Legible
  | literal value => ∃ found, value = some found ∧ found.Legible
  | unary operator operand => operator.Operates ∧ operand.Legible
  | reference name => name.Names

/-- A legible expression has a proper form. -/
theorem Expr.proper_form {expr : Expr} (hlegible : expr.Legible) : expr.form.Proper := by
  induction expr with
  | binary left operator right ihLeft ihRight =>
      obtain ⟨hoperator, hleft, hright⟩ := hlegible
      exact ⟨hoperator.isPlain, ihLeft hleft, ihRight hright⟩
  | grouping inner paren ih => exact ⟨List.all_eq_true.mp rfl, ih hlegible.2⟩
  | literal value =>
      obtain ⟨found, rfl, hfound⟩ := hlegible
      exact hfound.proper
  | unary operator operand ih => exact ⟨hlegible.1.isPlain, ih hlegible.2⟩
  | reference name => exact hlegible.proper

/-- A form belongs to one expression, up to lines. -/
theorem Expr.form_inj {first second : Expr} (hfirst : first.Legible) (hsecond : second.Legible)
    (hsame : first.form = second.form) : first.withoutLines = second.withoutLines := by
  induction first generalizing second with
  | binary left operator right ihLeft ihRight =>
      obtain ⟨hoperator, hleft, hright⟩ := hfirst
      cases second with
      | binary left' operator' right' =>
          obtain ⟨hoperator', hleft', hright'⟩ := hsecond
          obtain ⟨hheads, hlefts, hrights⟩ := Form.two.inj hsame
          rw [withoutLines, withoutLines, ihLeft hleft hleft' hlefts, ihRight hright hright' hrights,
            hoperator.withoutLine_eq hoperator' (String.toList_inj.mp hheads)]
      | grouping => cases hsame
      | literal => cases hsame
      | unary => cases hsame
      | reference => cases hsame
  | grouping inner paren ih =>
      obtain ⟨⟨opening, rfl, hkind, hopening⟩, hinner⟩ := hfirst
      cases second with
      | grouping inner' paren' =>
          obtain ⟨⟨opening', rfl, hkind', hopening'⟩, hinner'⟩ := hsecond
          rw [withoutLines, withoutLines, ih hinner hinner' (Form.one.inj hsame).2,
            Option.map_some, Option.map_some,
            hopening.withoutLine_eq hopening' (hkind.trans hkind'.symm)]
      | unary operator' operand' =>
          exact absurd (String.toList_inj.mp (Form.one.inj hsame).1).symm
            hsecond.1.lexeme_ne_group
      | binary => cases hsame
      | literal => cases hsame
      | reference => cases hsame
  | literal value =>
      obtain ⟨found, rfl, hfound⟩ := hfirst
      cases second with
      | literal value' =>
          obtain ⟨found', rfl, hfound'⟩ := hsecond
          rw [hfound.display_inj hfound' (String.toList_inj.mp (Form.word.inj hsame))]
      | reference name =>
          exact absurd (String.toList_inj.mp (Form.word.inj hsame)) (hfound.display_ne_name hsecond)
      | binary => cases hsame
      | grouping => cases hsame
      | unary => cases hsame
  | unary operator operand ih =>
      cases second with
      | unary operator' operand' =>
          obtain ⟨hheads, hoperands⟩ := Form.one.inj hsame
          rw [withoutLines, withoutLines, ih hfirst.2 hsecond.2 hoperands,
            hfirst.1.withoutLine_eq hsecond.1 (String.toList_inj.mp hheads)]
      | grouping inner' paren' =>
          exact absurd (String.toList_inj.mp (Form.one.inj hsame).1) hfirst.1.lexeme_ne_group
      | binary => cases hsame
      | literal => cases hsame
      | reference => cases hsame
  | reference name =>
      cases second with
      | reference name' =>
          rw [withoutLines, withoutLines,
            Token.Names.withoutLine_eq hfirst hsecond (String.toList_inj.mp (Form.word.inj hsame))]
      | literal value' =>
          obtain ⟨found', rfl, hfound'⟩ := hsecond
          exact absurd (String.toList_inj.mp (Form.word.inj hsame)).symm
            (hfound'.display_ne_name hfirst)
      | binary => cases hsame
      | grouping => cases hsame
      | unary => cases hsame

namespace Stmt

/-- The statement is made of what sources without strings and infinite numbers
give. -/
def Legible : Stmt → Prop
  | print value => value.Legible
  | expression value => value.Legible
  | declare name initializer => name.Names ∧ ∀ value ∈ initializer, value.Legible

theorem proper_form {stmt : Stmt} (hlegible : stmt.Legible) : stmt.form.Proper := by
  cases stmt with
  | print value => exact ⟨List.all_eq_true.mp rfl, Expr.proper_form hlegible⟩
  | expression value => exact ⟨List.all_eq_true.mp rfl, Expr.proper_form hlegible⟩
  | declare name initializer =>
      obtain ⟨hname, hinitializer⟩ := hlegible
      cases initializer with
      | none => exact ⟨List.all_eq_true.mp rfl, hname.proper⟩
      | some value =>
          exact ⟨List.all_eq_true.mp rfl, hname.proper, Expr.proper_form (hinitializer value rfl)⟩

theorem form_inj {first second : Stmt} (hfirst : first.Legible) (hsecond : second.Legible)
    (hsame : first.form = second.form) : first.withoutLines = second.withoutLines := by
  have hheads : "print" ≠ ";" ∧ "print" ≠ "var" ∧ ";" ≠ "var" := by decide
  have hhead : ∀ {head head' : String} {part part' : Form},
      Form.one head.toList part = Form.one head'.toList part' → head = head' :=
    fun hone => String.toList_inj.mp (Form.one.inj hone).1
  have hword : ∀ {name name' : Token},
      Form.word name.lexeme.toList = Form.word name'.lexeme.toList → name.lexeme = name'.lexeme :=
    fun hnames => String.toList_inj.mp (Form.word.inj hnames)
  cases first with
  | print value =>
      cases second with
      | print value' =>
          rw [withoutLines, withoutLines, Expr.form_inj hfirst hsecond (Form.one.inj hsame).2]
      | expression => exact absurd (hhead hsame) hheads.1
      | declare name' initializer' =>
          cases initializer' with
          | none => exact absurd (hhead hsame) hheads.2.1
          | some => cases hsame
  | expression value =>
      cases second with
      | print => exact absurd (hhead hsame).symm hheads.1
      | expression value' =>
          rw [withoutLines, withoutLines, Expr.form_inj hfirst hsecond (Form.one.inj hsame).2]
      | declare name' initializer' =>
          cases initializer' with
          | none => exact absurd (hhead hsame) hheads.2.2
          | some => cases hsame
  | declare name initializer =>
      cases initializer with
      | none =>
          cases second with
          | print => exact absurd (hhead hsame).symm hheads.2.1
          | expression => exact absurd (hhead hsame).symm hheads.2.2
          | declare name' initializer' =>
              cases initializer' with
              | none =>
                  rw [withoutLines, withoutLines,
                    hfirst.1.withoutLine_eq hsecond.1 (hword (Form.one.inj hsame).2)]
              | some => cases hsame
      | some value =>
          cases second with
          | print => cases hsame
          | expression => cases hsame
          | declare name' initializer' =>
              cases initializer' with
              | none => cases hsame
              | some value' =>
                  obtain ⟨-, hnames, hvalues⟩ := Form.two.inj hsame
                  rw [withoutLines, withoutLines,
                    hfirst.1.withoutLine_eq hsecond.1 (hword hnames), Option.map_some,
                    Option.map_some, Expr.form_inj (hfirst.2 value rfl) (hsecond.2 value' rfl) hvalues]

/-- A text belongs to one statement, up to lines. -/
theorem text_inj {first second : Stmt} (hfirst : first.Legible) (hsecond : second.Legible)
    (hsame : first.text = second.text) : first.withoutLines = second.withoutLines := by
  refine form_inj hfirst hsecond (Form.text_inj (proper_form hfirst) (proper_form hsecond) ?_)
  rw [text_form, text_form, hsame]

end Stmt

/-! ## Trees of sources -/

namespace Scan

/-- A token's value is what its text stands for. -/
theorem denotes_classify {first : Char} {rest : List Char} {kind : Kind}
    {literal : Option Value} {length : Nat}
    (hclassify : classify first rest = (.token kind literal, length)) :
    Denotes kind (first :: rest.take length) literal := by
  have hspace : isSpace first = false := by
    by_contra hblank
    rw [Bool.not_eq_false] at hblank
    simp [classify, hblank] at hclassify
  have hline : ∀ more, first :: rest ≠ '/' :: '/' :: more := by
    rintro more ⟨⟩
    have hcomment : (classify '/' ('/' :: more)).1 = .comment := rfl
    rw [hclassify] at hcomment
    cases hcomment
  have hblock : ∀ more, first :: rest ≠ '/' :: '*' :: more := by
    rintro more ⟨⟩
    have hslash : classify '/' ('*' :: more) = classifySlash ('*' :: more) := rfl
    rw [hslash, classifySlash] at hclassify
    split at hclassify <;> cases hclassify
  have hmunches := munches_classify hspace hline hblock
  rw [hclassify] at hmunches
  exact hmunches.1

theorem scanned_pieces (line : Int) (text : List Char) :
    ∀ piece ∈ pieces line text, ∀ kind literal, piece.shape = .token kind literal →
      Lexeme kind piece.text ∧ Denotes kind piece.text literal := by
  induction line, text using pieces.induct with
  | case1 line =>
      rw [pieces]
      simp
  | case2 line first rest shape length hclassify text ih =>
      rw [pieces, hclassify, List.forall_mem_cons]
      refine ⟨?_, ih⟩
      rintro kind literal rfl
      obtain ⟨taken, after, rfl, hlength, hcut⟩ := cuts_classify first rest
      rw [hclassify] at hlength hcut
      obtain rfl : length = taken.length := hlength
      have hdenotes := denotes_classify hclassify
      rw [List.take_left] at hdenotes ⊢
      cases hcut with
      | token _ _ _ hlexeme => exact ⟨hlexeme, hdenotes⟩

end Scan

namespace Token

/-- A token as scanning makes it. -/
structure Scanned (token : Token) : Prop where
  lexeme : token.kind ≠ .eof → Scan.Lexeme token.kind token.lexeme.toList
  denotes : Scan.Denotes token.kind token.lexeme.toList token.literal

/-- The tokens of a source are scanned ones. -/
theorem scanned_of_mem {source : String} {token : Token}
    (hmem : token ∈ (Scan.ofSource source).tokens) : token.Scanned := by
  rcases List.mem_append.mp hmem with hfound | hend
  · obtain ⟨piece, hpiece, htoken⟩ := List.mem_filterMap.mp hfound
    rw [Piece.token?] at htoken
    split at htoken
    · next kind literal hshape =>
        obtain ⟨hlexeme, hdenotes⟩ := Scan.scanned_pieces 1 _ piece hpiece kind literal hshape
        obtain rfl := Option.some.inj htoken
        rw [← String.toList_ofList (l := piece.text)] at hlexeme hdenotes
        exact ⟨fun _ => hlexeme, hdenotes⟩
    · cases htoken
  · obtain rfl := List.mem_singleton.mp hend
    exact ⟨fun hkind => absurd rfl hkind, rfl⟩

/-- Neither a string nor an infinite number. -/
def isSimple (token : Token) : Bool :=
  token.kind != .string &&
    match token.literal with
    | some (.number value) => value.isFinite
    | _ => true

variable {token : Token}

theorem Scanned.spelled (hscanned : token.Scanned) (hspelling : token.kind.spelling?.isSome = true)
    (hliteral : token.kind.isLiteral = false) : token.Spelled := by
  obtain ⟨kind, lexeme, literal, line⟩ := token
  obtain ⟨hlexeme, hdenotes⟩ := hscanned
  have hnone : literal = none := by
    cases kind <;> first | exact hdenotes | cases hliteral
  refine ⟨?_, hnone⟩
  have heof : kind ≠ .eof := by
    rintro rfl
    cases hspelling
  generalize htext : lexeme.toList = text at hlexeme
  cases hlexeme heof with
  | fixed hfixed => rw [hfixed, String.toList_inj.mp htext]
  | name => cases hspelling
  | whole => cases hspelling
  | fraction => cases hspelling
  | string => cases hspelling

theorem Scanned.operates (hscanned : token.Scanned) (hkind : token.kind ∈ operatorKinds) :
    token.Operates := by
  have hkinds : ∀ kind ∈ operatorKinds,
      kind.spelling?.isSome = true ∧ kind.isLiteral = false := by decide
  obtain ⟨hspelling, hliteral⟩ := hkinds _ hkind
  exact ⟨hkind, hscanned.spelled hspelling hliteral⟩

theorem Scanned.names (hscanned : token.Scanned) (hkind : token.kind = .identifier) :
    token.Names := by
  obtain ⟨kind, lexeme, literal, line⟩ := token
  obtain rfl : kind = .identifier := hkind
  refine ⟨rfl, hscanned.denotes, ?_⟩
  have heof : Kind.identifier ≠ .eof := by decide
  have hlexeme := hscanned.lexeme heof
  generalize htext : lexeme.toList = text at hlexeme
  cases hlexeme with
  | fixed hfixed => cases hfixed
  | name first more hfirst hmore hfree =>
      refine ⟨first, more, rfl, hfirst, hmore, ?_⟩
      rw [← htext, String.ofList_toList] at hfree
      exact hfree

/-- Apart from strings and infinite numbers, the literals of a source are
legible. -/
theorem Scanned.legible_literal (hscanned : token.Scanned) (hsimple : token.isSimple = true)
    (hkind : token.kind ∈ [Kind.number, Kind.string, Kind.trueWord, Kind.falseWord,
      Kind.nilWord]) : ∃ found, token.literal = some found ∧ found.Legible := by
  obtain ⟨kind, lexeme, literal, line⟩ := token
  have hdenotes : Scan.Denotes kind lexeme.toList literal := hscanned.denotes
  simp only [List.mem_cons, List.not_mem_nil, or_false] at hkind
  rcases hkind with rfl | rfl | rfl | rfl | rfl
  · obtain ⟨number, value, -, hrounds, rfl⟩ := hdenotes
    have hfinite : value.isFinite = true := hsimple
    exact ⟨_, rfl, .number value hfinite (hrounds.isNegative_eq hfinite)⟩
  · cases hsimple
  · exact ⟨_, hdenotes, .boolean true⟩
  · exact ⟨_, hdenotes, .boolean false⟩
  · exact ⟨_, hdenotes, .nil⟩

end Token

namespace Grammar

theorem Layer.operators_subset {phrase operand : Phrase} {operators : List Kind}
    (layer : Layer phrase operators operand) : operators ⊆ operatorKinds := by
  cases layer <;> decide

/-- Simple tokens of a source make a legible tree. -/
theorem Derivation.legible_tree {phrase : Phrase} (derivation : Derivation phrase)
    (htokens : ∀ token ∈ derivation.yield, token.Scanned ∧ token.isSimple = true) :
    derivation.tree.Legible := by
  induction derivation with
  | only _ single ih => exact ih htokens
  | join layer left operator hoperator right ihLeft ihRight =>
      have hoperator' := (htokens operator (List.mem_append_right _ List.mem_cons_self)).1
      refine ⟨hoperator'.operates (layer.operators_subset hoperator), ihLeft ?_, ihRight ?_⟩
      · exact fun token hmem => htokens token (List.mem_append_left _ hmem)
      · exact fun token hmem =>
          htokens token (List.mem_append_right _ (List.mem_cons_of_mem _ hmem))
  | sign operator hoperator operand ih =>
      have hsigns : [Kind.bang, Kind.minus] ⊆ operatorKinds := by decide
      refine ⟨(htokens operator List.mem_cons_self).1.operates (hsigns hoperator), ih ?_⟩
      exact fun token hmem => htokens token (List.mem_cons_of_mem _ hmem)
  | plain primary ih => exact ih htokens
  | literal token hkind =>
      obtain ⟨hscanned, hsimple⟩ := htokens token List.mem_cons_self
      exact hscanned.legible_literal hsimple hkind
  | reference name hname => exact (htokens name List.mem_cons_self).1.names hname
  | group opening hopening inner closing hclosing ih =>
      have hscanned := (htokens opening List.mem_cons_self).1
      refine ⟨⟨opening, rfl, hopening, hscanned.spelled ?_ ?_⟩, ih ?_⟩
      · rw [hopening]
        rfl
      · rw [hopening]
        rfl
      · exact fun token hmem =>
          htokens token (List.mem_cons_of_mem _ (List.mem_append_left _ hmem))

theorem Clause.legible_tree (clause : Clause)
    (htokens : ∀ token ∈ clause.yield, token.Scanned ∧ token.isSimple = true) :
    clause.tree.Legible := by
  cases clause with
  | declareNil word name semicolon _ hname =>
      have hscanned := (htokens name (List.mem_cons_of_mem _ List.mem_cons_self)).1
      exact ⟨hscanned.names hname, fun value hvalue => by cases hvalue⟩
  | declareValue word name equal value semicolon _ hname =>
      have hscanned := (htokens name (List.mem_cons_of_mem _ List.mem_cons_self)).1
      refine ⟨hscanned.names hname, ?_⟩
      rintro _ ⟨⟩
      refine value.legible_tree fun token hmem => htokens token ?_
      exact List.mem_cons_of_mem _ (List.mem_cons_of_mem _ (List.mem_cons_of_mem _
        (List.mem_append_left _ hmem)))
  | print word value =>
      exact value.legible_tree fun token hmem =>
        htokens token (List.mem_cons_of_mem _ (List.mem_append_left _ hmem))
  | evaluate value =>
      exact value.legible_tree fun token hmem => htokens token (List.mem_append_left _ hmem)

end Grammar

/-- A source of simple tokens has legible statements. -/
theorem Analysis.legible_statements {limits : Limits} {source : String}
    (hsimple : ∀ token ∈ (Scan.ofSource source).tokens, token.isSimple = true) :
    ∀ stmt ∈ (Analysis.ofSource limits source).program.statements, stmt.Legible := by
  intro stmt hmem
  obtain ⟨clause, rfl, hyield⟩ := Program.exists_clause hmem
  exact clause.legible_tree fun token htoken =>
    ⟨Token.scanned_of_mem (hyield token htoken), hsimple token (hyield token htoken)⟩

theorem Stmt.map_withoutLines_eq {first second : List Stmt} (hfirst : ∀ stmt ∈ first, stmt.Legible)
    (hsecond : ∀ stmt ∈ second, stmt.Legible) (hsame : first.map text = second.map text) :
    first.map withoutLines = second.map withoutLines := by
  induction first generalizing second with
  | nil =>
      cases second with
      | nil => rfl
      | cons => cases hsame
  | cons stmt first ih =>
      cases second with
      | nil => cases hsame
      | cons stmt' second =>
          obtain ⟨htext, hlater⟩ := List.cons.inj hsame
          obtain ⟨hstmt, hfirst⟩ := List.forall_mem_cons.mp hfirst
          obtain ⟨hstmt', hsecond⟩ := List.forall_mem_cons.mp hsecond
          rw [List.map_cons, List.map_cons, text_inj hstmt hstmt' htext, ih hfirst hsecond hlater]

/-- Rendered texts are the texts of the statements. -/
theorem Stmt.map_text_of_render {stack : Option Nat} {stmts : List Stmt} {texts : List String}
    (hshown : stmts.map (render stack) = texts.map some) : stmts.map text = texts := by
  induction stmts generalizing texts with
  | nil =>
      cases texts with
      | nil => rfl
      | cons => cases hshown
  | cons stmt stmts ih =>
      cases texts with
      | nil => cases hshown
      | cons shown texts =>
          obtain ⟨hstmt, hlater⟩ := List.cons.inj hshown
          rw [List.map_cons, ih hlater, eq_text_of_render hstmt]

/-- Sources with neither strings nor infinite numbers, whatever mistakes stand in
them, are read as the same statements, up to lines, if their statements are shown
as the same texts. -/
theorem texts_determine_statements (first second : String) (limits limits' : Limits)
    (stack stack' : Option Nat) (texts : List String)
    (hfirst : ∀ token ∈ (Scan.ofSource first).tokens, token.isSimple = true)
    (hsecond : ∀ token ∈ (Scan.ofSource second).tokens, token.isSimple = true)
    (hshown : (Analysis.ofSource limits first).program.statements.map (Stmt.render stack) =
      texts.map some)
    (hshown' : (Analysis.ofSource limits' second).program.statements.map (Stmt.render stack') =
      texts.map some) :
    (Analysis.ofSource limits first).program.statements.map Stmt.withoutLines =
      (Analysis.ofSource limits' second).program.statements.map Stmt.withoutLines := by
  refine Stmt.map_withoutLines_eq (Analysis.legible_statements hfirst)
    (Analysis.legible_statements hsecond) ?_
  rw [Stmt.map_text_of_render hshown, Stmt.map_text_of_render hshown']

/-- A variable called `group`, both kinds of minus, and one number in two spellings.
The lines differ, and nothing else does. -/
theorem texts_determine_statements_group :
    let limits := (Session.start .standard).limits
    let first := "print -(group - 1.50) == nil;\nvar x;\nvar y = !true;"
    let second := "print - ( group-1.5 )==nil; // same\nvar x ; var y=! true;"
    let texts := ["(print (== (- (group (- group 1.5))) nil))", "(var x)", "(var y (! true))"]
    let stmts := (Analysis.ofSource limits first).program.statements
    let stmts' := (Analysis.ofSource limits second).program.statements
    (∀ token ∈ (Scan.ofSource first).tokens, token.isSimple = true) ∧
      (∀ token ∈ (Scan.ofSource second).tokens, token.isSimple = true) ∧
      stmts.map (Stmt.render limits.stack) = texts.map some ∧
      stmts'.map (Stmt.render limits.stack) = texts.map some ∧
      stmts ≠ stmts' ∧ stmts.map Stmt.withoutLines = stmts'.map Stmt.withoutLines := by
  intro limits first second texts stmts stmts'
  have hfirst : ∀ token ∈ (Scan.ofSource first).tokens, token.isSimple = true := by
    decide +kernel
  have hsecond : ∀ token ∈ (Scan.ofSource second).tokens, token.isSimple = true := by
    decide +kernel
  have hshown : stmts.map (Stmt.render limits.stack) = texts.map some := by decide +kernel
  have hshown' : stmts'.map (Stmt.render limits.stack) = texts.map some := by decide +kernel
  exact ⟨hfirst, hsecond, hshown, hshown', by decide +kernel,
    texts_determine_statements first second limits limits limits.stack limits.stack texts hfirst
      hsecond hshown hshown'⟩

end Lumen
