/-!
# Punctuators

The operators and separators of the expression language, some of which are recognised only to be
rejected.
-/

namespace WatchExpr

/-- An operator or a separator. -/
inductive Punctuator where
  | lParen | rParen | lSquare | rSquare | period | arrow | colonColon | colon | question | comma
  | plus | minus | star | slash | percent | amp | ampAmp | pipe | pipePipe | caret | tilde | exclaim
  | less | lessEqual | lessLess | greater | greaterEqual | greaterGreater | equalEqual | exclaimEqual
  | equal | plusEqual | minusEqual | starEqual | slashEqual | percentEqual | ampEqual | pipeEqual
  | caretEqual | lessLessEqual | greaterGreaterEqual | plusPlus | minusMinus
deriving DecidableEq, Repr

namespace Punctuator

/-- Every punctuator, longer ones first. -/
def all : List Punctuator :=
  [.lessLessEqual, .greaterGreaterEqual,
   .arrow, .colonColon, .ampAmp, .pipePipe, .lessEqual, .greaterEqual, .lessLess, .greaterGreater,
   .equalEqual, .exclaimEqual, .plusEqual, .minusEqual, .starEqual, .slashEqual, .percentEqual,
   .ampEqual, .pipeEqual, .caretEqual, .plusPlus, .minusMinus,
   .lParen, .rParen, .lSquare, .rSquare, .period, .colon, .question, .comma, .plus, .minus, .star,
   .slash, .percent, .amp, .pipe, .caret, .tilde, .exclaim, .less, .greater, .equal]

/-- The characters of the punctuator. -/
def chars : Punctuator → List Char
  | .lParen => ['(']
  | .rParen => [')']
  | .lSquare => ['[']
  | .rSquare => [']']
  | .period => ['.']
  | .arrow => ['-', '>']
  | .colonColon => [':', ':']
  | .colon => [':']
  | .question => ['?']
  | .comma => [',']
  | .plus => ['+']
  | .minus => ['-']
  | .star => ['*']
  | .slash => ['/']
  | .percent => ['%']
  | .amp => ['&']
  | .ampAmp => ['&', '&']
  | .pipe => ['|']
  | .pipePipe => ['|', '|']
  | .caret => ['^']
  | .tilde => ['~']
  | .exclaim => ['!']
  | .less => ['<']
  | .lessEqual => ['<', '=']
  | .lessLess => ['<', '<']
  | .greater => ['>']
  | .greaterEqual => ['>', '=']
  | .greaterGreater => ['>', '>']
  | .equalEqual => ['=', '=']
  | .exclaimEqual => ['!', '=']
  | .equal => ['=']
  | .plusEqual => ['+', '=']
  | .minusEqual => ['-', '=']
  | .starEqual => ['*', '=']
  | .slashEqual => ['/', '=']
  | .percentEqual => ['%', '=']
  | .ampEqual => ['&', '=']
  | .pipeEqual => ['|', '=']
  | .caretEqual => ['^', '=']
  | .lessLessEqual => ['<', '<', '=']
  | .greaterGreaterEqual => ['>', '>', '=']
  | .plusPlus => ['+', '+']
  | .minusMinus => ['-', '-']

/-- The name of the punctuator in diagnostics. -/
def name : Punctuator → String
  | .lParen => "l_paren"
  | .rParen => "r_paren"
  | .lSquare => "l_square"
  | .rSquare => "r_square"
  | .period => "period"
  | .arrow => "arrow"
  | .colonColon => "coloncolon"
  | .colon => "colon"
  | .question => "question"
  | .comma => "comma"
  | .plus => "plus"
  | .minus => "minus"
  | .star => "star"
  | .slash => "slash"
  | .percent => "percent"
  | .amp => "amp"
  | .ampAmp => "ampamp"
  | .pipe => "pipe"
  | .pipePipe => "pipepipe"
  | .caret => "caret"
  | .tilde => "tilde"
  | .exclaim => "exclaim"
  | .less => "less"
  | .lessEqual => "lessequal"
  | .lessLess => "lessless"
  | .greater => "greater"
  | .greaterEqual => "greaterequal"
  | .greaterGreater => "greatergreater"
  | .equalEqual => "equalequal"
  | .exclaimEqual => "exclaimequal"
  | .equal => "equal"
  | .plusEqual => "plusequal"
  | .minusEqual => "minusequal"
  | .starEqual => "starequal"
  | .slashEqual => "slashequal"
  | .percentEqual => "percentequal"
  | .ampEqual => "ampequal"
  | .pipeEqual => "pipeequal"
  | .caretEqual => "caretequal"
  | .lessLessEqual => "lesslessequal"
  | .greaterGreaterEqual => "greatergreaterequal"
  | .plusPlus => "plusplus"
  | .minusMinus => "minusminus"

/-- The assignment operators. -/
def isAssignment : Punctuator → Bool
  | .equal | .plusEqual | .minusEqual | .starEqual | .slashEqual | .percentEqual | .ampEqual
  | .pipeEqual | .caretEqual | .lessLessEqual | .greaterGreaterEqual => true
  | _ => false

/-- The longest punctuator that a text starts with. -/
def longest? (text : List Char) : Option Punctuator :=
  all.find? fun p => p.chars.isPrefixOf text

theorem mem_all (p : Punctuator) : p ∈ all := by
  cases p <;> decide

theorem chars_ne_nil (p : Punctuator) : p.chars ≠ [] := by
  cases p <;> simp [chars]

end Punctuator

end WatchExpr
