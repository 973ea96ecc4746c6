import IosGame.Loop
import IosGame.System
import IosGame.Document
import IosGame.Marks
import IosGame.Keyed
import IosGame.MainQueue
import IosGame.Text
import IosGame.Ranking
import IosGame.Descending
import IosGame.Poker.Card
import IosGame.Poker.Classing
import IosGame.Poker.Partition
import IosGame.Poker.Ends
import IosGame.Poker.Order
import IosGame.Poker.Chosen
import IosGame.Poker.Chooser
import IosGame.Poker.Deal
import IosGame.Poker.Dealing
import IosGame.Poker.Seats
import IosGame.Poker.Game
import IosGame.Poker.Run
import IosGame.Poker.Table
import IosGame.Poker.Refine
import IosGame.Poker.Accounts
import IosGame.Poker.Rounds
import IosGame.Poker.Tricks
import IosGame.Poker.FreeLead
import IosGame.Poker.Opening
import IosGame.Poker.NewGame
import IosGame.Poker.Ranks
import IosGame.Poker.Rows
import IosGame.Poker.Valid
import IosGame.Poker.StraightFlushes
import IosGame.Poker.Flushes
import IosGame.Poker.Straights
import IosGame.Poker.Classified
import IosGame.Poker.Sound
import IosGame.Poker.Pool
import IosGame.Poker.Exhaustive
import IosGame.Poker.Recognition
import IosGame.Poker.Best
import IosGame.Poker.Decisive
import IosGame.Poker.Hulu
import IosGame.Poker.Parts
import IosGame.Poker.Confirm
import IosGame.Poker.Finish
import IosGame.Poker.Screen
import IosGame.Poker.Session
import IosGame.Poker.Selection
import IosGame.Poker.Waiting
import IosGame.Poker.Responds
import IosGame.Rooms.Room
import IosGame.Rooms.Races
import IosGame.Rooms.Succession
import IosGame.Rooms.Overlap
import IosGame.Rooms.Create
import IosGame.Rooms.Lookup
import IosGame.Rooms.Leaving
import IosGame.Rooms.Repeated
import IosGame.Rooms.Slots
import IosGame.Alphabet.Word
import IosGame.Alphabet.Clock
import IosGame.Alphabet.Play
import IosGame.Songs
import IosGame.Riddles
import IosGame.Sheets.Csv
import IosGame.Sheets.Deed
import IosGame.Sheets.RoundTrip
import IosGame.Sheets.Map
import IosGame.Sheets.Malformed
import IosGame.Sheets.Board
import IosGame.Sheets.Setup
