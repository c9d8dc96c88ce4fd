import QuantTrader.Backtest.Account
import QuantTrader.Backtest.Lockstep
import QuantTrader.Engine.Conservation
import QuantTrader.Engine.Progress
import QuantTrader.Engine.Sent
import QuantTrader.Kis.Chase
import QuantTrader.Kis.NoOverfill
import QuantTrader.Ledger.Answers
import QuantTrader.Ledger.Book
import QuantTrader.Ledger.ExactlyOnce
import QuantTrader.Ledger.Progress
import QuantTrader.Ledger.Safety
import QuantTrader.Orders.Writer
import QuantTrader.Pipeline.Halt
import QuantTrader.Pipeline.Restart
import QuantTrader.Pipeline.World
import QuantTrader.Strategy.LiveEnsemble
import QuantTrader.Strategy.Replay
import QuantTrader.Streaming.Completeness
import QuantTrader.Relay.AtLeastOnce
import QuantTrader.Rebalance.OncePerBar
import QuantTrader.Rebalance.Executable
import QuantTrader.Rebalance.DailyJob
import QuantTrader.Rebalance.DailyLedger
import QuantTrader.Rebalance.Targets
import QuantTrader.StockOrders.Executor
import QuantTrader.StockOrders.OneWay
import QuantTrader.Kis.Trace
import QuantTrader.StockOrders.Outcome
import QuantTrader.Streaming.Recovery
import QuantTrader.Api.Cache
import QuantTrader.Backfill.GapFree
import QuantTrader.Validation.LabelLeak
import QuantTrader.Fundamentals.PointInTime
import QuantTrader.Fundamentals.Store
import QuantTrader.Fundamentals.Trailing
import QuantTrader.Weekly.OneTrade
import QuantTrader.Backtest.Conservation
import QuantTrader.Backtest.CrossSectional
import QuantTrader.Backtest.LookAhead
import QuantTrader.Backtest.WalkForward
import QuantTrader.Streaming.TickSink
import QuantTrader.Migrations.Boot
import QuantTrader.Migrations.Prefix
import QuantTrader.Equity.Reset
import QuantTrader.Membership.Kr
import QuantTrader.Membership.Refresh
import QuantTrader.Krx.Gaps
import QuantTrader.Krx.Microstructure
import QuantTrader.PaperLedger.Fill
import QuantTrader.Ichimoku.Executable
import QuantTrader.Kis.Observed
import QuantTrader.Streaming.Watchdog
import QuantTrader.Backtest.Fees
import QuantTrader.Backtest.Evaluate
import QuantTrader.Rebalance.Sound
import QuantTrader.Rebalance.Quiet
import QuantTrader.Backtest.Overcommit
import QuantTrader.Weights.Policy
import QuantTrader.Equity.Total
import QuantTrader.Performance.Fifo
import QuantTrader.Performance.Cache
import QuantTrader.Kis.PostRetry
import QuantTrader.Weekly.Confirm
import QuantTrader.Calendar.Iso
import QuantTrader.Ichimoku.Lines
import QuantTrader.Membership.Invert
import QuantTrader.Holdings.Form13F
import QuantTrader.Streaming.Kiwoom
import QuantTrader.RateLimit.TokenBucket
import QuantTrader.OAuth.TokenCache
import QuantTrader.StockNames.Resolve
import QuantTrader.Streaming.Receive
import QuantTrader.Backtest.Journal
import QuantTrader.Backtest.Disciplined
import QuantTrader.Backtest.Peaks
import QuantTrader.Market.Hours
import QuantTrader.Backtest.Intraday
import QuantTrader.Series.Latest
import QuantTrader.Features.Dataset
import QuantTrader.Backtest.Warmup
import QuantTrader.Features.CrossMarket
import QuantTrader.Ichimoku.WeeklyJob
import QuantTrader.Streaming.Daily
import QuantTrader.Backfill.Daily
import QuantTrader.Learning.OutOfSample
import QuantTrader.Backtest.Justified
import QuantTrader.Delivery.Cursor
import QuantTrader.Telegram.Bot
